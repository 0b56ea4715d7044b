import AvalancheParallel.Foundation.Runs
import AvalancheParallel.Foundation.Streaks
import AvalancheParallel.Ids
import AvalancheParallel.Snowball.Instances

/-!
# Snowflakes with many choices

`nnarySnowflake` of `default/snow/consensus/snowball`, with any number of termination conditions.
A counter is the number of the last calls that were polls for the preference at or above
its threshold, for as long as the instance is not finalized. The thresholds grow, so the loop
over the conditions may stop at the first one that the poll misses, and the instance is
finalized by the first poll that makes some streak as long as its beta.
-/

namespace AvalancheParallel.Snowball

open AvalancheParallel.Ids AvalancheParallel.Runs AvalancheParallel.Streaks

/-- `nnarySnowflake`, with the preference of its slush. -/
structure NnarySnowflake where
  preference : ID
  alphaPreference : ℤ
  terminationConditions : List TerminationCondition
  confidence : List ℤ
  finalized : Bool

/-- `newNnarySnowflake`. -/
def newNnarySnowflake (alphaPreference : ℤ) (terminationConditions : List TerminationCondition)
    (choice : ID) : NnarySnowflake :=
  ⟨choice, alphaPreference, terminationConditions, terminationConditions.map (fun _ => 0), false⟩

namespace NnarySnowflake

/-- `nnarySnowflake.RecordUnsuccessfulPoll`. -/
def recordUnsuccessfulPoll (sf : NnarySnowflake) : NnarySnowflake :=
  { sf with confidence := sf.confidence.map (fun _ => 0) }

/-- `nnarySnowflake.RecordPoll`. -/
def recordPoll (sf : NnarySnowflake) (count : ℤ) (choice : ID) : NnarySnowflake :=
  if sf.finalized then sf
  else if count < sf.alphaPreference then sf.recordUnsuccessfulPoll
  else
    let kept := if choice ≠ sf.preference then sf.confidence.map (fun _ => 0) else sf.confidence
    let advanced := advance count sf.terminationConditions kept
    { sf with preference := choice, confidence := advanced.1, finalized := advanced.2 }

end NnarySnowflake

/-- The calls that record the outcome of a poll. -/
inductive PollCall where
  | recordPoll (count : ℤ) (choice : ID)
  | recordUnsuccessfulPoll
deriving DecidableEq

namespace PollCall

def step (sf : NnarySnowflake) : PollCall → NnarySnowflake
  | recordPoll count choice => sf.recordPoll count choice
  | recordUnsuccessfulPoll => sf.recordUnsuccessfulPoll

/-- A poll for the choice that reaches the threshold of the condition. -/
def confident (condition : TerminationCondition) (choice : ID) : PollCall → Bool
  | recordPoll count polled => decide (polled = choice ∧ condition.alphaConfidence ≤ count)
  | recordUnsuccessfulPoll => false

end PollCall

/-- For some condition, as many consecutive calls as its beta were confident polls for the
choice. -/
def Decides (conditions : List TerminationCondition) (calls : List PollCall) (choice : ID) : Prop :=
  ∃ condition ∈ conditions,
    HasStreak (PollCall.confident condition choice) calls condition.beta.toNat

/-- The loop over the conditions, for counters given as a function of the condition. -/
theorem advance_map (count : ℤ) (value : TerminationCondition → ℤ)
    {conditions : List TerminationCondition}
    (ascending : conditions.Pairwise (fun low high => low.alphaConfidence < high.alphaConfidence)) :
    ((advance count conditions (conditions.map value)).2 = true ↔
      ∃ condition ∈ conditions, condition.alphaConfidence ≤ count ∧
        condition.beta ≤ value condition + 1) ∧
    ((advance count conditions (conditions.map value)).2 = false →
      (advance count conditions (conditions.map value)).1 = conditions.map (fun condition =>
        if count < condition.alphaConfidence then 0 else value condition + 1)) := by
  induction conditions with
  | nil => simp [advance]
  | cons condition conditions inductionHypothesis =>
    obtain ⟨above, later⟩ := List.pairwise_cons.mp ascending
    obtain ⟨decided, moved⟩ := inductionHypothesis later
    simp only [List.map_cons, advance]
    split
    · rename_i low
      -- a poll that misses this threshold misses all that follow
      have missed : ∀ other ∈ condition :: conditions, count < other.alphaConfidence := by
        intro other member
        rcases List.mem_cons.mp member with rfl | member
        · exact low
        · exact low.trans (above other member)
      constructor
      · refine iff_of_false (by simp) ?_
        rintro ⟨other, member, reached, _⟩
        exact absurd (missed other member) (by omega)
      · intro _
        refine congrArg (List.cons 0) ?_
        rw [List.map_map]
        refine List.map_congr_left ?_
        intro other member
        rw [if_pos (missed other (List.mem_cons_of_mem _ member))]
        rfl
    · rename_i reached
      split
      · rename_i enough
        refine ⟨iff_of_true rfl ⟨condition, List.mem_cons_self, by omega, enough⟩, ?_⟩
        intro impossible
        cases impossible
      · rename_i short
        constructor
        · rw [decided, List.exists_mem_cons_iff]
          exact (or_iff_right (fun here => short here.2)).symm
        · intro undecided
          rw [moved undecided]

section Streaks

variable {alphaPreference : ℤ} {conditions : List TerminationCondition} {calls : List PollCall}

/-- The thresholds and betas that an instance may be given. -/
structure Admissible (alphaPreference : ℤ) (conditions : List TerminationCondition) : Prop where
  ascending : conditions.Pairwise (fun low high => low.alphaConfidence < high.alphaConfidence)
  confident : ∀ condition ∈ conditions, alphaPreference ≤ condition.alphaConfidence
  positive : ∀ condition ∈ conditions, 0 < condition.beta

/-- The length of the streak of polls for a choice. -/
def confidentStreak (choice : ID) (calls : List PollCall) (condition : TerminationCondition) : ℤ :=
  streak (PollCall.confident condition choice) calls

/-- One more poll lengthens the streak or ends it. -/
theorem confidentStreak_concat (choice : ID) (call : PollCall) (condition : TerminationCondition) :
    confidentStreak choice (calls ++ [call]) condition =
      if PollCall.confident condition choice call then confidentStreak choice calls condition + 1
      else 0 := by
  unfold confidentStreak
  rw [streak_concat]
  split <;> simp

/-- A call decides the instance when a streak becomes long enough with it. -/
theorem decides_concat_iff (call : PollCall) (choice : ID) :
    Decides conditions (calls ++ [call]) choice ↔ Decides conditions calls choice ∨
      ∃ condition ∈ conditions,
        condition.beta ≤ confidentStreak choice (calls ++ [call]) condition := by
  unfold Decides confidentStreak
  simp only [hasStreak_concat_iff, Int.toNat_le, and_or_left, exists_or]

/-- What is known of an instance after some calls. -/
structure NnarySnowflake.Tracks (alphaPreference : ℤ) (conditions : List TerminationCondition)
    (calls : List PollCall) (sf : NnarySnowflake) : Prop where
  threshold : sf.alphaPreference = alphaPreference
  given : sf.terminationConditions = conditions
  counters : sf.finalized = false →
    sf.confidence = conditions.map (confidentStreak sf.preference calls)
  others : sf.finalized = false → ∀ choice ≠ sf.preference, ∀ condition ∈ conditions,
    confidentStreak choice calls condition = 0
  finalized : sf.finalized = true ↔ ∃ choice, Decides conditions calls choice

/-- The new instance has seen no polls. -/
theorem newNnarySnowflake_tracks (admissible : Admissible alphaPreference conditions)
    (choice : ID) :
    (newNnarySnowflake alphaPreference conditions choice).Tracks alphaPreference conditions [] where
  threshold := rfl
  given := rfl
  counters _ := rfl
  others _ _ _ _ _ := rfl
  finalized := by
    refine iff_of_false (by simp [newNnarySnowflake]) ?_
    rintro ⟨polled, condition, member, long⟩
    have positive := admissible.positive condition member
    rw [hasStreak_nil_iff] at long
    omega

/-- Calls that are no confident polls decide nothing. -/
theorem NnarySnowflake.Tracks.cleared {sf : NnarySnowflake}
    (admissible : Admissible alphaPreference conditions)
    (tracks : sf.Tracks alphaPreference conditions calls) (undecided : sf.finalized = false)
    {call : PollCall} (weak : ∀ choice, ∀ condition ∈ conditions,
      PollCall.confident condition choice call = false) :
    sf.recordUnsuccessfulPoll.Tracks alphaPreference conditions (calls ++ [call]) := by
  have zero : ∀ choice, ∀ condition ∈ conditions,
      confidentStreak choice (calls ++ [call]) condition = 0 := by
    intro choice condition member
    rw [confidentStreak_concat, weak choice condition member]
    rfl
  refine ⟨tracks.threshold, tracks.given, ?_, ?_, ?_⟩
  · intro _
    change sf.confidence.map (fun _ => 0) = _
    rw [tracks.counters undecided, List.map_map]
    refine List.map_congr_left ?_
    intro condition member
    exact (zero _ condition member).symm
  · intro _ choice _ condition member
    exact zero choice condition member
  · change sf.finalized = true ↔ _
    rw [tracks.finalized]
    refine exists_congr ?_
    intro choice
    rw [decides_concat_iff]
    refine (or_iff_left ?_).symm
    rintro ⟨condition, member, reached⟩
    rw [zero choice condition member] at reached
    exact absurd (admissible.positive condition member) (by omega)

/-- A poll continues the streaks of its choice that it reaches the threshold of. -/
theorem confidentStreak_polled (count : ℤ) (choice : ID) (condition : TerminationCondition) :
    confidentStreak choice (calls ++ [.recordPoll count choice]) condition =
      if count < condition.alphaConfidence then 0
      else confidentStreak choice calls condition + 1 := by
  rw [confidentStreak_concat]
  by_cases low : count < condition.alphaConfidence
  · rw [if_pos low, if_neg (by simp [PollCall.confident, low])]
  · rw [if_neg low, if_pos (by simpa [PollCall.confident] using low)]

/-- A poll ends the streaks of other choices. -/
theorem confidentStreak_other (count : ℤ) {choice other : ID} (different : other ≠ choice)
    (condition : TerminationCondition) :
    confidentStreak other (calls ++ [.recordPoll count choice]) condition = 0 := by
  rw [confidentStreak_concat, if_neg (by simp [PollCall.confident, Ne.symm different])]

/-- A poll with enough votes for a preference advances the counters of its choice. -/
theorem NnarySnowflake.Tracks.recordPoll_eq {sf : NnarySnowflake}
    (tracks : sf.Tracks alphaPreference conditions calls) (undecided : sf.finalized = false)
    {count : ℤ} (enough : ¬ count < sf.alphaPreference) (choice : ID) :
    sf.recordPoll count choice = { sf with
      preference := choice
      confidence := (advance count conditions (conditions.map (confidentStreak choice calls))).1
      finalized := (advance count conditions (conditions.map (confidentStreak choice calls))).2 }
    := by
  -- the counters that the poll continues with are those of its choice
  have kept : (if choice ≠ sf.preference then sf.confidence.map (fun _ => 0) else sf.confidence) =
      conditions.map (confidentStreak choice calls) := by
    rw [tracks.counters undecided]
    split
    · rename_i changed
      rw [List.map_map]
      refine List.map_congr_left ?_
      intro condition member
      exact (tracks.others undecided choice changed condition member).symm
    · rename_i same
      rw [not_not.mp same]
  unfold NnarySnowflake.recordPoll
  rw [if_neg (by simp [undecided]), if_neg enough]
  dsimp only
  rw [kept, tracks.given]

/-- A poll with enough votes for a preference. -/
theorem NnarySnowflake.Tracks.polled {sf : NnarySnowflake}
    (admissible : Admissible alphaPreference conditions)
    (tracks : sf.Tracks alphaPreference conditions calls) (undecided : sf.finalized = false)
    {count : ℤ} (enough : ¬ count < sf.alphaPreference) (choice : ID) :
    (sf.recordPoll count choice).Tracks alphaPreference conditions
      (calls ++ [.recordPoll count choice]) := by
  obtain ⟨decided, moved⟩ := advance_map count (confidentStreak choice calls) admissible.ascending
  rw [tracks.recordPoll_eq undecided enough]
  refine ⟨tracks.threshold, tracks.given, ?_, ?_, ?_⟩
  · intro still
    dsimp only at still ⊢
    rw [moved still]
    refine List.map_congr_left ?_
    intro condition _
    rw [confidentStreak_polled]
  · intro _ other different condition _
    exact confidentStreak_other count different condition
  · dsimp only
    rw [decided]
    have never : ¬ ∃ choice, Decides conditions calls choice := by
      rw [← tracks.finalized, undecided]
      simp
    constructor
    · rintro ⟨condition, member, reached, long⟩
      refine ⟨choice, (decides_concat_iff _ choice).mpr (Or.inr ⟨condition, member, ?_⟩)⟩
      rw [confidentStreak_polled, if_neg (by omega)]
      exact long
    · rintro ⟨other, decides⟩
      rcases (decides_concat_iff _ other).mp decides with before | ⟨condition, member, long⟩
      · exact absurd ⟨other, before⟩ never
      · have positive := admissible.positive condition member
        by_cases same : other = choice
        · subst same
          rw [confidentStreak_polled] at long
          split at long
          · omega
          · exact ⟨condition, member, by omega, long⟩
        · rw [confidentStreak_other count same] at long
          omega

/-- A finalized instance changes its counters at most. -/
theorem step_finalized {sf : NnarySnowflake} (finalized : sf.finalized = true) (call : PollCall) :
    ∃ confidence, PollCall.step sf call = { sf with confidence := confidence } := by
  cases call with
  | recordPoll count choice =>
    refine ⟨sf.confidence, ?_⟩
    rw [PollCall.step, NnarySnowflake.recordPoll, if_pos finalized]
  | recordUnsuccessfulPoll => exact ⟨_, rfl⟩

/-- A finalized instance stays finalized and keeps its preference. -/
theorem run_finalized {sf : NnarySnowflake} (finalized : sf.finalized = true)
    (later : List PollCall) :
    (run PollCall.step sf later).finalized = true ∧
      (run PollCall.step sf later).preference = sf.preference := by
  refine run_invariant PollCall.step (fun after => after.finalized = true ∧
    after.preference = sf.preference) ?_ sf later ⟨finalized, rfl⟩
  rintro after call ⟨still, same⟩
  obtain ⟨confidence, stepped⟩ := step_finalized still call
  rw [stepped]
  exact ⟨still, same⟩

/-- Every call keeps track. -/
theorem NnarySnowflake.Tracks.step {sf : NnarySnowflake}
    (admissible : Admissible alphaPreference conditions)
    (tracks : sf.Tracks alphaPreference conditions calls) (call : PollCall) :
    (PollCall.step sf call).Tracks alphaPreference conditions (calls ++ [call]) := by
  cases finalized : sf.finalized with
  | true =>
    obtain ⟨confidence, stepped⟩ := step_finalized finalized call
    obtain ⟨choice, decides⟩ := tracks.finalized.mp finalized
    rw [stepped]
    refine ⟨tracks.threshold, tracks.given, ?_, ?_, ?_⟩
    · intro undecided
      exact absurd (finalized.symm.trans undecided) (by simp)
    · intro undecided
      exact absurd (finalized.symm.trans undecided) (by simp)
    · exact iff_of_true finalized ⟨choice, (decides_concat_iff call choice).mpr (Or.inl decides)⟩
  | false =>
    cases call with
    | recordUnsuccessfulPoll => exact tracks.cleared admissible finalized (fun _ _ _ => rfl)
    | recordPoll count choice =>
      by_cases low : count < sf.alphaPreference
      · have weak : sf.recordUnsuccessfulPoll.Tracks alphaPreference conditions
            (calls ++ [.recordPoll count choice]) := tracks.cleared admissible finalized (by
          intro polled condition member
          have threshold := admissible.confident condition member
          rw [tracks.threshold] at low
          simp only [PollCall.confident, decide_eq_false_iff_not, not_and]
          omega)
        simpa [PollCall.step, NnarySnowflake.recordPoll, finalized, low] using weak
      · exact tracks.polled admissible finalized low choice

/-- The instance counts the streaks of every sequence of polls. -/
theorem run_tracks (admissible : Admissible alphaPreference conditions) (choice : ID)
    (calls : List PollCall) :
    (run PollCall.step (newNnarySnowflake alphaPreference conditions choice) calls).Tracks
      alphaPreference conditions calls := by
  induction calls using List.reverseRecOn with
  | nil => exact newNnarySnowflake_tracks admissible choice
  | append_singleton calls call inductionHypothesis =>
    rw [run_append]
    exact inductionHypothesis.step admissible call

end Streaks

/-- An instance is finalized exactly when, for some condition, as many consecutive calls as its
beta were polls for one choice at or above its threshold, and from the first call that completes
such a streak the preference is that choice. -/
theorem nnarySnowflake_finalized_iff_streak (alphaPreference : ℤ)
    (conditions : List TerminationCondition) (choice : ID)
    (ascending : conditions.Pairwise (fun low high => low.alphaConfidence < high.alphaConfidence))
    (confident : ∀ condition ∈ conditions, alphaPreference ≤ condition.alphaConfidence)
    (positive : ∀ condition ∈ conditions, 0 < condition.beta) :
    let state := run PollCall.step (newNnarySnowflake alphaPreference conditions choice)
    (∀ calls, (state calls).finalized = true ↔ ∃ decided, Decides conditions calls decided) ∧
    ∀ calls call decided, (∀ earlier, ¬ Decides conditions calls earlier) →
      Decides conditions (calls ++ [call]) decided →
      ∀ later, (state (calls ++ [call] ++ later)).preference = decided := by
  intro state
  have admissible : Admissible alphaPreference conditions := ⟨ascending, confident, positive⟩
  have tracks := run_tracks admissible choice
  refine ⟨fun calls => (tracks calls).finalized, ?_⟩
  intro calls call decided never decides later
  have finalized := (tracks (calls ++ [call])).finalized.mpr ⟨decided, decides⟩
  have kept := (run_finalized finalized later).2
  rw [← run_append] at kept
  refine kept.trans ?_
  -- the call that completes the streak is a poll for its choice
  rcases (decides_concat_iff call decided).mp decides with before | ⟨condition, member, long⟩
  · exact absurd before (never decided)
  have undecided : (state calls).finalized = false := by
    rw [← Bool.not_eq_true, (tracks calls).finalized]
    exact fun ⟨earlier, before⟩ => never earlier before
  have positiveBeta := positive condition member
  have last : PollCall.confident condition decided call = true := by
    by_contra weak
    rw [confidentStreak_concat, if_neg weak] at long
    omega
  cases call with
  | recordUnsuccessfulPoll => simp [PollCall.confident] at last
  | recordPoll count polled =>
    obtain ⟨rfl, reached⟩ := of_decide_eq_true last
    have threshold := confident condition member
    have enough : ¬ count < (state calls).alphaPreference := by
      rw [(tracks calls).threshold]
      omega
    rw [run_append]
    change ((state calls).recordPoll count polled).preference = polled
    unfold NnarySnowflake.recordPoll
    rw [if_neg (by simp [undecided]), if_neg enough]

/-- Two conditions, and polls for another choice than the first. The second poll completes the
streak of the stricter condition. -/
theorem nnarySnowflake_finalized_iff_streak_switch :
    let other : ID := Vector.replicate 32 1
    let calls : List PollCall := [.recordPoll 4 other, .recordPoll 5 other]
    (run PollCall.step (newNnarySnowflake 2 [⟨3, 3⟩, ⟨4, 2⟩] (Vector.replicate 32 0))
      calls).finalized = true := by
  intro other calls
  have exactly := nnarySnowflake_finalized_iff_streak 2 [⟨3, 3⟩, ⟨4, 2⟩] (Vector.replicate 32 0)
    (by simp) (by simp) (by simp)
  refine (exactly.1 calls).mpr ⟨other, ⟨4, 2⟩, by simp, [], calls, [], rfl, rfl, ?_⟩
  simp [calls, PollCall.confident]

end AvalancheParallel.Snowball
