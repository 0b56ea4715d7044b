import AvalancheParallel.Snowball.Instances

/-!
# Counters of confidence

Both factories make instances that contain a snowflake, with a single termination
condition: one counter of consecutive polls, the level of the instance. A poll at or
above the threshold raises the level by one, any other poll and a reset set it to zero,
and the instance is finalized when the level reaches beta. A binary instance that
changes its preference starts again from zero.
-/

namespace AvalancheParallel.Snowball

/-- The value of the single counter. -/
def level (confidence : List ℤ) : ℤ := confidence.headD 0

/-- The level after a poll with the given number of votes. -/
def gain (params : Parameters) (count level : ℤ) : ℤ :=
  if count < params.alphaConfidence then 0 else level + 1

/-- No poll makes the level negative. -/
theorem gain_nonneg (params : Parameters) (count : ℤ) {level : ℤ} (nonneg : 0 ≤ level) :
    0 ≤ gain params count level := by
  unfold gain
  split
  · exact Int.le_refl 0
  · omega

/-- More votes at a higher level lead to a higher level. -/
theorem gain_mono (params : Parameters) {count more lower higher : ℤ} (votes : count ≤ more)
    (nonneg : 0 ≤ lower) (below : lower ≤ higher) :
    gain params count lower ≤ gain params more higher := by
  unfold gain
  split
  · split
    · exact Int.le_refl 0
    · omega
  · split
    · omega
    · omega

/-- A counter as a valid instance has it. -/
structure Counting (params : Parameters) (conditions : List TerminationCondition)
    (confidence : List ℤ) (finalized : Bool) : Prop where
  conditions : conditions = newSingleTerminationCondition params.alphaConfidence params.beta
  single : ∃ level, confidence = [level]
  nonneg : 0 ≤ level confidence
  undecided : finalized = false → level confidence < params.beta

variable {params : Parameters} {conditions : List TerminationCondition} {confidence : List ℤ}
  {finalized : Bool}

/-- The loop over the conditions moves the single counter. -/
theorem Counting.advance (counting : Counting params conditions confidence finalized)
    (count : ℤ) :
    (∃ next, (advance count conditions confidence).1 = [next]) ∧
      level (advance count conditions confidence).1 = gain params count (level confidence) ∧
      ((advance count conditions confidence).2 = true ↔
        params.alphaConfidence ≤ count ∧ params.beta ≤ level confidence + 1) := by
  obtain ⟨current, rfl⟩ := counting.single
  obtain rfl := counting.conditions
  simp only [Snowball.advance, newSingleTerminationCondition, gain, level, List.headD_cons,
    List.map_cons, List.map_nil]
  split
  · rename_i low
    refine ⟨⟨0, rfl⟩, rfl, ?_⟩
    simp only [Bool.false_eq_true, false_iff, not_and]
    omega
  · split
    · refine ⟨⟨current + 1, rfl⟩, rfl, ?_⟩
      simp only [true_iff]
      omega
    · refine ⟨⟨current + 1, rfl⟩, rfl, ?_⟩
      simp only [Bool.false_eq_true, false_iff, not_and]
      omega

/-- Clearing the counter. -/
theorem Counting.reset (counting : Counting params conditions confidence finalized)
    (positive : 0 < params.beta) :
    Counting params conditions (confidence.map (fun _ => 0)) finalized ∧
      level (confidence.map (fun _ => 0)) = 0 := by
  obtain ⟨current, rfl⟩ := counting.single
  exact ⟨⟨counting.conditions, ⟨0, rfl⟩, Int.le_refl 0, fun _ => positive⟩, rfl⟩

/-- The counter after a poll. -/
theorem Counting.poll (counting : Counting params conditions confidence finalized) (count : ℤ) :
    Counting params conditions (Snowball.advance count conditions confidence).1
        (finalized || (Snowball.advance count conditions confidence).2) ∧
      (finalized = false → (Snowball.advance count conditions confidence).2 = true →
        params.beta ≤ level (Snowball.advance count conditions confidence).1) := by
  obtain ⟨single, moved, decided⟩ := counting.advance count
  refine ⟨⟨counting.conditions, single, ?_, ?_⟩, ?_⟩
  · rw [moved]
    exact gain_nonneg params count counting.nonneg
  · intro still
    obtain ⟨before, after⟩ := Bool.or_eq_false_iff.mp still
    have low := counting.undecided before
    have nonneg := counting.nonneg
    have notReached : ¬ (params.alphaConfidence ≤ count ∧ params.beta ≤ level confidence + 1) := by
      rw [← decided, after]
      exact Bool.false_ne_true
    rw [moved]
    unfold gain
    split
    · omega
    · omega
  · intro _ reached
    obtain ⟨enough, high⟩ := decided.mp reached
    rw [moved]
    unfold gain
    rw [if_neg (Int.not_lt.mpr enough)]
    exact high

/-- A unary snowflake with one counter. -/
structure UnarySnowflake.Counts (params : Parameters) (sf : UnarySnowflake) : Prop where
  counting : Counting params sf.terminationConditions sf.confidence sf.finalized
  threshold : sf.alphaPreference = params.alphaPreference

/-- A binary snowflake with one counter. -/
structure BinarySnowflake.Counts (params : Parameters) (sf : BinarySnowflake) : Prop where
  counting : Counting params sf.terminationConditions sf.confidence sf.finalized
  threshold : sf.alphaPreference = params.alphaPreference

/-- The snowflake inside each instance of a factory. -/
structure FlakeView (F : Factory) where
  unary : F.Unary → UnarySnowflake
  binary : F.Binary → BinarySnowflake
  newUnary : ∀ params, unary (F.newUnary params) = newUnarySnowflake params.alphaPreference
    (newSingleTerminationCondition params.alphaConfidence params.beta)
  unaryPoll : ∀ u count, unary (F.unaryRecordPoll u count) = (unary u).recordPoll count
  unaryReset : ∀ u, unary (F.unaryRecordUnsuccessfulPoll u) = (unary u).recordUnsuccessfulPoll
  unaryFinalized : ∀ u, F.unaryFinalized u = (unary u).finalized
  extend : ∀ u choice, binary (F.extend u choice) = (unary u).extend choice
  binaryPoll : ∀ b count choice, binary (F.binaryRecordPoll b count choice) =
    (binary b).recordPoll count choice
  binaryReset : ∀ b, binary (F.binaryRecordUnsuccessfulPoll b) = (binary b).recordUnsuccessfulPoll
  binaryFinalized : ∀ b, F.binaryFinalized b = (binary b).finalized

/-- The instances of `SnowflakeFactory` are snowflakes. -/
def snowflakeView : FlakeView snowflakeFactory where
  unary := fun u => u
  binary := fun b => b
  newUnary := fun _ => rfl
  unaryPoll := fun _ _ => rfl
  unaryReset := fun _ => rfl
  unaryFinalized := fun _ => rfl
  extend := fun _ _ => rfl
  binaryPoll := fun _ _ _ => rfl
  binaryReset := fun _ => rfl
  binaryFinalized := fun _ => rfl

/-- The instances of `SnowballFactory` wrap snowflakes. -/
def snowballView : FlakeView snowballFactory where
  unary := fun u => UnarySnowball.snowflake u
  binary := fun b => BinarySnowball.snowflake b
  newUnary := fun _ => rfl
  unaryPoll := fun _ _ => rfl
  unaryReset := fun _ => rfl
  unaryFinalized := fun _ => rfl
  extend := fun _ _ => rfl
  binaryPoll := by
    intro b count choice
    change (BinarySnowball.recordPoll b count choice).snowflake = _
    unfold BinarySnowball.recordPoll
    dsimp only
    split
    · rfl
    · rfl
  binaryReset := fun _ => rfl
  binaryFinalized := fun _ => rfl

namespace FlakeView

variable {F : Factory} (view : FlakeView F)

/-- The level of a unary instance. -/
def unaryLevel (u : F.Unary) : ℤ := level (view.unary u).confidence

/-- The level of a binary instance. -/
def binaryLevel (b : F.Binary) : ℤ := level (view.binary b).confidence

/-- The choice that the counter of a binary instance is about. -/
def slush (b : F.Binary) : Bool := (view.binary b).slushPreference

/-- The new instance counts from zero. -/
theorem newUnary_counts (positive : 0 < params.beta) :
    (view.unary (F.newUnary params)).Counts params ∧ view.unaryLevel (F.newUnary params) = 0 ∧
      F.unaryFinalized (F.newUnary params) = false := by
  rw [view.unaryFinalized, unaryLevel, view.newUnary]
  exact ⟨⟨⟨rfl, ⟨0, rfl⟩, Int.le_refl 0, fun _ => positive⟩, rfl⟩, rfl, rfl⟩

/-- An unsuccessful poll starts the count again. -/
theorem unaryReset_counts (positive : 0 < params.beta) {u : F.Unary}
    (counts : (view.unary u).Counts params) :
    (view.unary (F.unaryRecordUnsuccessfulPoll u)).Counts params ∧
      view.unaryLevel (F.unaryRecordUnsuccessfulPoll u) = 0 ∧
      F.unaryFinalized (F.unaryRecordUnsuccessfulPoll u) = F.unaryFinalized u := by
  obtain ⟨counting, zero⟩ := counts.counting.reset positive
  rw [view.unaryFinalized, view.unaryFinalized, unaryLevel, view.unaryReset]
  exact ⟨⟨counting, counts.threshold⟩, zero, rfl⟩

/-- A poll adds to the level, and finalizes only at `beta`. -/
theorem unaryPoll_counts {u : F.Unary} (counts : (view.unary u).Counts params) (count : ℤ) :
    (view.unary (F.unaryRecordPoll u count)).Counts params ∧
      view.unaryLevel (F.unaryRecordPoll u count) = gain params count (view.unaryLevel u) ∧
      (F.unaryFinalized u = false → F.unaryFinalized (F.unaryRecordPoll u count) = true →
        params.beta ≤ view.unaryLevel (F.unaryRecordPoll u count)) := by
  obtain ⟨counting, reached⟩ := counts.counting.poll count
  rw [view.unaryFinalized, view.unaryFinalized]
  unfold unaryLevel
  rw [view.unaryPoll]
  refine ⟨⟨counting, counts.threshold⟩, (counts.counting.advance count).2.1, ?_⟩
  intro before after
  change ((view.unary u).finalized || _) = true at after
  rw [before, Bool.false_or] at after
  exact reached before after

/-- A binary instance goes on with the count of the unary one. -/
theorem extend_counts {u : F.Unary} (counts : (view.unary u).Counts params) (choice : Bool) :
    (view.binary (F.extend u choice)).Counts params ∧
      view.binaryLevel (F.extend u choice) = view.unaryLevel u ∧
      view.slush (F.extend u choice) = choice ∧
      F.binaryFinalized (F.extend u choice) = F.unaryFinalized u := by
  rw [view.binaryFinalized, view.unaryFinalized]
  unfold binaryLevel slush
  rw [view.extend]
  exact ⟨⟨counts.counting, counts.threshold⟩, rfl, rfl, rfl⟩

/-- An unsuccessful poll starts the count again and keeps the preference. -/
theorem binaryReset_counts (positive : 0 < params.beta) {b : F.Binary}
    (counts : (view.binary b).Counts params) :
    (view.binary (F.binaryRecordUnsuccessfulPoll b)).Counts params ∧
      view.binaryLevel (F.binaryRecordUnsuccessfulPoll b) = 0 ∧
      view.slush (F.binaryRecordUnsuccessfulPoll b) = view.slush b ∧
      F.binaryFinalized (F.binaryRecordUnsuccessfulPoll b) = F.binaryFinalized b := by
  obtain ⟨counting, zero⟩ := counts.counting.reset positive
  rw [view.binaryFinalized, view.binaryFinalized]
  unfold binaryLevel slush
  rw [view.binaryReset]
  exact ⟨⟨counting, counts.threshold⟩, zero, rfl, rfl⟩

/-- A poll of an undecided binary instance counts from zero when it changes the choice. -/
theorem binaryPoll_counts (positive : 0 < params.beta) {b : F.Binary}
    (counts : (view.binary b).Counts params) {count : ℤ} (enough : params.alphaPreference ≤ count)
    (choice : Bool) (undecided : F.binaryFinalized b = false) :
    (view.binary (F.binaryRecordPoll b count choice)).Counts params ∧
      view.binaryLevel (F.binaryRecordPoll b count choice) =
        gain params count (if choice = view.slush b then view.binaryLevel b else 0) ∧
      view.slush (F.binaryRecordPoll b count choice) = choice ∧
      (F.binaryFinalized (F.binaryRecordPoll b count choice) = true →
        params.beta ≤ view.binaryLevel (F.binaryRecordPoll b count choice)) := by
  rw [view.binaryFinalized] at undecided ⊢
  unfold binaryLevel slush
  rw [view.binaryPoll]
  generalize view.binary b = sf at counts undecided
  have notLow : ¬ count < sf.alphaPreference := by
    rw [counts.threshold]
    omega
  have current := counts.counting
  rw [undecided] at current
  -- the counter the poll continues with
  have kept : Counting params sf.terminationConditions
      (if choice ≠ sf.slushPreference then sf.confidence.map (fun _ => 0) else sf.confidence)
      false ∧ level
      (if choice ≠ sf.slushPreference then sf.confidence.map (fun _ => 0) else sf.confidence) =
      if choice = sf.slushPreference then level sf.confidence else 0 := by
    by_cases same : choice = sf.slushPreference
    · simp only [same, ne_eq, not_true_eq_false, if_false, if_true, and_true]
      exact current
    · simp only [same, ne_eq, not_false_eq_true, if_true, if_false]
      exact current.reset positive
  obtain ⟨counting, reached⟩ := kept.1.poll count
  have moved := (kept.1.advance count).2.1
  rw [kept.2] at moved
  unfold BinarySnowflake.recordPoll
  simp only [undecided, Bool.false_eq_true, if_false, notLow]
  exact ⟨⟨counting, counts.threshold⟩, moved, trivial, reached rfl⟩

/-- A decided binary instance does not change any more. -/
theorem binaryPoll_decided (b : F.Binary) (count : ℤ) (choice : Bool)
    (decided : F.binaryFinalized b = true) :
    view.binary (F.binaryRecordPoll b count choice) = view.binary b := by
  rw [view.binaryFinalized] at decided
  rw [view.binaryPoll]
  unfold BinarySnowflake.recordPoll
  rw [if_pos decided]

/-- A unary instance after a reset that may be pending. -/
theorem unaryPending_counts (positive : 0 < params.beta) {u : F.Unary}
    (counts : (view.unary u).Counts params) (reset : Bool) :
    (view.unary (if reset then F.unaryRecordUnsuccessfulPoll u else u)).Counts params ∧
      view.unaryLevel (if reset then F.unaryRecordUnsuccessfulPoll u else u) =
        (if reset then 0 else view.unaryLevel u) ∧
      F.unaryFinalized (if reset then F.unaryRecordUnsuccessfulPoll u else u) =
        F.unaryFinalized u := by
  cases reset with
  | false => exact ⟨counts, rfl, rfl⟩
  | true => exact view.unaryReset_counts positive counts

/-- A binary instance after a reset that may be pending. -/
theorem binaryPending_counts (positive : 0 < params.beta) {b : F.Binary}
    (counts : (view.binary b).Counts params) (reset : Bool) :
    (view.binary (if reset then F.binaryRecordUnsuccessfulPoll b else b)).Counts params ∧
      view.binaryLevel (if reset then F.binaryRecordUnsuccessfulPoll b else b) =
        (if reset then 0 else view.binaryLevel b) ∧
      view.slush (if reset then F.binaryRecordUnsuccessfulPoll b else b) = view.slush b ∧
      F.binaryFinalized (if reset then F.binaryRecordUnsuccessfulPoll b else b) =
        F.binaryFinalized b := by
  cases reset with
  | false => exact ⟨counts, rfl, rfl, rfl⟩
  | true => exact view.binaryReset_counts positive counts

end FlakeView

end AvalancheParallel.Snowball
