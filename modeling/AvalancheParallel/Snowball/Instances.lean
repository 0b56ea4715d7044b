import AvalancheParallel.Foundation.EarlyExits
import Mathlib.Data.Int.Init
import Mathlib.Data.List.Basic

/-!
# Snow instances

The unary and binary instances of `default/snow/consensus/snowball` and the factories
that produce them. A snowflake counts consecutive polls above each confidence
threshold and is finalized when a counter reaches its beta; a snowball also counts the
polls for each of its choices. The two choices of a binary instance are truth values,
`true` being 1.

`Factory` collects the methods the snowball tree uses, with the one law that extending
an instance keeps the choice it is extended with.
-/

namespace AvalancheParallel.Snowball

open AvalancheParallel.EarlyExits

/-- `Parameters`. -/
structure Parameters where
  k : ℤ
  alphaPreference : ℤ
  alphaConfidence : ℤ
  beta : ℤ
  concurrentRepolls : ℤ
  optimalProcessing : ℤ
  maxOutstandingItems : ℤ
  maxItemProcessingTime : ℤ

/-- The conditions that `Verify` finds violated. -/
inductive ParametersError where
  | alphaPreferenceLow
  | alphaConfidenceLow
  | kLow
  | alphaPreferenceSwapped
  | concurrentRepollsLow
  | betaLow
  | optimalProcessingLow
  | maxOutstandingItemsLow
  | maxItemProcessingTimeLow
deriving DecidableEq, Repr

/-- `Parameters.Verify`; `none` is the nil error. -/
def Parameters.verify (p : Parameters) : Option ParametersError :=
  if p.alphaPreference ≤ p.k.tdiv 2 then some .alphaPreferenceLow
  else if p.alphaConfidence < p.alphaPreference then some .alphaConfidenceLow
  else if p.k < p.alphaConfidence then some .kLow
  else if p.alphaConfidence = 3 ∧ p.alphaPreference = 28 then some .alphaPreferenceSwapped
  else if p.concurrentRepolls ≤ 0 then some .concurrentRepollsLow
  else if p.beta < p.concurrentRepolls then some .betaLow
  else if p.optimalProcessing ≤ 0 then some .optimalProcessingLow
  else if p.maxOutstandingItems ≤ 0 then some .maxOutstandingItemsLow
  else if p.maxItemProcessingTime ≤ 0 then some .maxItemProcessingTimeLow
  else none

/-- Parameters are valid when they pass all checks. -/
theorem Parameters.verify_eq_none (p : Parameters) :
    p.verify = none ↔ p.k.tdiv 2 < p.alphaPreference ∧ p.alphaPreference ≤ p.alphaConfidence ∧
      p.alphaConfidence ≤ p.k ∧ ¬ (p.alphaConfidence = 3 ∧ p.alphaPreference = 28) ∧
      0 < p.concurrentRepolls ∧ p.concurrentRepolls ≤ p.beta ∧ 0 < p.optimalProcessing ∧
      0 < p.maxOutstandingItems ∧ 0 < p.maxItemProcessingTime := by
  simp only [verify, check_eq_none, Int.not_le, Int.not_lt, and_true]

/-- Valid parameters: a preference needs a majority of the `k` votes. -/
theorem Parameters.majority {p : Parameters} (valid : p.verify = none) :
    0 < p.alphaPreference ∧ p.k < 2 * p.alphaPreference := by
  obtain ⟨majority, confidence, bounded, _⟩ := p.verify_eq_none.mp valid
  have positive : 0 ≤ p.k := by
    by_contra negative
    have low : p.k ≤ p.k.tdiv 2 := by
      rw [Int.tdiv_eq_ediv]
      split
      · omega
      · simp only [Int.sign_eq_one_of_pos (by omega : (0 : ℤ) < 2)]
        omega
    omega
  rw [Int.tdiv_eq_ediv_of_nonneg positive] at majority
  omega

/-- Valid parameters ask for at least one poll. -/
theorem Parameters.beta_pos {p : Parameters} (valid : p.verify = none) : 0 < p.beta := by
  obtain ⟨_, _, _, _, repolls, enough, _⟩ := p.verify_eq_none.mp valid
  omega

/-- `terminationCondition`. -/
structure TerminationCondition where
  alphaConfidence : ℤ
  beta : ℤ

/-- `newSingleTerminationCondition`. -/
def newSingleTerminationCondition (alphaConfidence beta : ℤ) : List TerminationCondition :=
  [⟨alphaConfidence, beta⟩]

/-- The loop over the termination conditions: counters whose threshold the poll reaches are
incremented, the others are cleared. The second component tells whether a counter has reached
its beta, which ends the loop. -/
def advance (count : ℤ) : List TerminationCondition → List ℤ → List ℤ × Bool
  | condition :: conditions, counter :: counters =>
    if count < condition.alphaConfidence then ((counter :: counters).map (fun _ => 0), false)
    else if condition.beta ≤ counter + 1 then ((counter + 1) :: counters, true)
    else
      let later := advance count conditions counters
      ((counter + 1) :: later.1, later.2)
  | _, counters => (counters, false)

/-- `unarySnowflake`. -/
structure UnarySnowflake where
  alphaPreference : ℤ
  terminationConditions : List TerminationCondition
  confidence : List ℤ
  finalized : Bool

/-- `newUnarySnowflake`. -/
def newUnarySnowflake (alphaPreference : ℤ) (conditions : List TerminationCondition) :
    UnarySnowflake :=
  ⟨alphaPreference, conditions, conditions.map (fun _ => 0), false⟩

/-- `unarySnowflake.RecordPoll`. -/
def UnarySnowflake.recordPoll (sf : UnarySnowflake) (count : ℤ) : UnarySnowflake :=
  let advanced := advance count sf.terminationConditions sf.confidence
  { sf with confidence := advanced.1, finalized := sf.finalized || advanced.2 }

/-- `unarySnowflake.RecordUnsuccessfulPoll`. -/
def UnarySnowflake.recordUnsuccessfulPoll (sf : UnarySnowflake) : UnarySnowflake :=
  { sf with confidence := sf.confidence.map (fun _ => 0) }

/-- `binarySnowflake`, with the preference of its slush. -/
structure BinarySnowflake where
  slushPreference : Bool
  alphaPreference : ℤ
  terminationConditions : List TerminationCondition
  confidence : List ℤ
  finalized : Bool

/-- `unarySnowflake.Extend`. -/
def UnarySnowflake.extend (sf : UnarySnowflake) (choice : Bool) : BinarySnowflake :=
  ⟨choice, sf.alphaPreference, sf.terminationConditions, sf.confidence, sf.finalized⟩

/-- `binarySnowflake.RecordUnsuccessfulPoll`. -/
def BinarySnowflake.recordUnsuccessfulPoll (sf : BinarySnowflake) : BinarySnowflake :=
  { sf with confidence := sf.confidence.map (fun _ => 0) }

/-- `binarySnowflake.RecordPoll`. -/
def BinarySnowflake.recordPoll (sf : BinarySnowflake) (count : ℤ) (choice : Bool) :
    BinarySnowflake :=
  if sf.finalized then sf
  else if count < sf.alphaPreference then sf.recordUnsuccessfulPoll
  else
    let kept := if choice ≠ sf.slushPreference then sf.confidence.map (fun _ => 0)
      else sf.confidence
    let advanced := advance count sf.terminationConditions kept
    { sf with slushPreference := choice, confidence := advanced.1, finalized := advanced.2 }

/-- `unarySnowball`. -/
structure UnarySnowball where
  snowflake : UnarySnowflake
  preferenceStrength : ℤ

/-- `newUnarySnowball`. -/
def newUnarySnowball (alphaPreference : ℤ) (conditions : List TerminationCondition) :
    UnarySnowball := ⟨newUnarySnowflake alphaPreference conditions, 0⟩

/-- `unarySnowball.RecordPoll`. -/
def UnarySnowball.recordPoll (sb : UnarySnowball) (count : ℤ) : UnarySnowball where
  snowflake := sb.snowflake.recordPoll count
  preferenceStrength := if sb.snowflake.alphaPreference ≤ count then sb.preferenceStrength + 1
    else sb.preferenceStrength

/-- `binarySnowball`. -/
structure BinarySnowball where
  snowflake : BinarySnowflake
  preference : Bool
  preferenceStrength : Bool → ℤ

/-- `unarySnowball.Extend`. -/
def UnarySnowball.extend (sb : UnarySnowball) (choice : Bool) : BinarySnowball where
  snowflake := sb.snowflake.extend choice
  preference := choice
  preferenceStrength := fun side => if side = choice then sb.preferenceStrength else 0

/-- `binarySnowball.Preference`. -/
def BinarySnowball.currentPreference (sb : BinarySnowball) : Bool :=
  if sb.snowflake.finalized then sb.snowflake.slushPreference else sb.preference

/-- `binarySnowball.RecordPoll`. -/
def BinarySnowball.recordPoll (sb : BinarySnowball) (count : ℤ) (choice : Bool) :
    BinarySnowball :=
  let strength := fun side => if side = choice then sb.preferenceStrength side + 1
    else sb.preferenceStrength side
  if sb.snowflake.alphaPreference ≤ count then
    { snowflake := sb.snowflake.recordPoll count choice
      preference := if strength (!choice) < strength choice then choice else sb.preference
      preferenceStrength := strength }
  else { sb with snowflake := sb.snowflake.recordPoll count choice }

/-- The instances a snowball tree works with. `Clone` copies a value and needs no field. -/
structure Factory where
  Unary : Type
  Binary : Type
  newUnary : Parameters → Unary
  unaryRecordPoll : Unary → ℤ → Unary
  unaryRecordUnsuccessfulPoll : Unary → Unary
  unaryFinalized : Unary → Bool
  extend : Unary → Bool → Binary
  binaryRecordPoll : Binary → ℤ → Bool → Binary
  binaryRecordUnsuccessfulPoll : Binary → Binary
  binaryPreference : Binary → Bool
  binaryFinalized : Binary → Bool
  preference_extend : ∀ unary choice, binaryPreference (extend unary choice) = choice

/-- `SnowflakeFactory`. -/
def snowflakeFactory : Factory where
  Unary := UnarySnowflake
  Binary := BinarySnowflake
  newUnary := fun params => newUnarySnowflake params.alphaPreference
    (newSingleTerminationCondition params.alphaConfidence params.beta)
  unaryRecordPoll := UnarySnowflake.recordPoll
  unaryRecordUnsuccessfulPoll := UnarySnowflake.recordUnsuccessfulPoll
  unaryFinalized := UnarySnowflake.finalized
  extend := UnarySnowflake.extend
  binaryRecordPoll := BinarySnowflake.recordPoll
  binaryRecordUnsuccessfulPoll := BinarySnowflake.recordUnsuccessfulPoll
  binaryPreference := BinarySnowflake.slushPreference
  binaryFinalized := BinarySnowflake.finalized
  preference_extend := fun _ _ => rfl

/-- `SnowballFactory`. -/
def snowballFactory : Factory where
  Unary := UnarySnowball
  Binary := BinarySnowball
  newUnary := fun params => newUnarySnowball params.alphaPreference
    (newSingleTerminationCondition params.alphaConfidence params.beta)
  unaryRecordPoll := UnarySnowball.recordPoll
  unaryRecordUnsuccessfulPoll := fun sb =>
    { sb with snowflake := sb.snowflake.recordUnsuccessfulPoll }
  unaryFinalized := fun sb => sb.snowflake.finalized
  extend := UnarySnowball.extend
  binaryRecordPoll := BinarySnowball.recordPoll
  binaryRecordUnsuccessfulPoll := fun sb =>
    { sb with snowflake := sb.snowflake.recordUnsuccessfulPoll }
  binaryPreference := BinarySnowball.currentPreference
  binaryFinalized := fun sb => sb.snowflake.finalized
  preference_extend := by
    intro sb choice
    unfold BinarySnowball.currentPreference
    split <;> rfl

end AvalancheParallel.Snowball
