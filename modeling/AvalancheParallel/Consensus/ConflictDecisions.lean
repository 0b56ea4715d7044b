import AvalancheParallel.Consensus.CompletedSweeps
import AvalancheParallel.Consensus.RegistrationLaws

/-!
# How conflicts are decided

The accept test passes only when every other member of the conflict sets is
rejected already, and the only write to `txsRejected` comes after a passed test.
Nothing is ever rejected: a conflict set with two undecided members blocks both
of them, and a transaction that arrives after its rival was accepted stays
undecided.
-/

namespace AvalancheParallel.Consensus

open AvalancheParallel.RangeLoop

variable {ID : Type} [DecidableEq ID]

/-- Exactly one member is accepted, and all the others are rejected. -/
def Resolved (members : Finset ID) (e : ParallelEngine ID) : Prop :=
  ∃ winner ∈ members, winner ∈ e.txsAccepted ∧
    ∀ other ∈ members, other ≠ winner → other ∈ e.txsRejected ∧ other ∉ e.txsAccepted

/-- A conflict set of undecided transactions with the single input `inputID`, each of
which is contained in a frontier vertex. -/
structure OpenConflict (e : ParallelEngine ID) (inputID : ID) (members : Finset ID) : Prop where
  registered : e.conflicts.lookup inputID = some members
  nonempty : members.Nonempty
  undecided : ∀ txID ∈ members, Undecided e txID
  single : ∀ tx, Processed e tx → tx.id ∈ members → tx.inputIDs = [inputID]
  contained : ∀ txID ∈ members, ∃ vertexID ∈ e.frontier, ∃ vertex,
    e.vertices.lookup vertexID = some vertex ∧ ∃ tx ∈ vertex.txs, tx.id = txID

/-- A member of an open conflict passes the accept test exactly when it is the only one. -/
theorem OpenConflict.clear_iff {e : ParallelEngine ID} {inputID : ID} {members : Finset ID}
    (openConflict : OpenConflict e inputID members) (wellformed : Wellformed e) (tx : Tx ID)
    (processed : Processed e tx) (member : tx.id ∈ members) :
    Clear e tx ↔ members = {tx.id} := by
  have inputs := openConflict.single tx processed member
  have set : e.conflictSet inputID = members := by
    simp [ParallelEngine.conflictSet, openConflict.registered]
  constructor
  · intro clear
    apply Finset.eq_singleton_iff_unique_mem.mpr
    refine ⟨member, fun other inside => ?_⟩
    have cleared := clear inputID (by simp [inputs]) other (set.symm ▸ inside)
    rw [wellformed.rejected] at cleared
    exact cleared.resolve_right (Finset.notMem_empty other)
  · intro alone input listed other inside
    rw [inputs, List.mem_singleton] at listed
    rw [listed, set, alone, Finset.mem_singleton] at inside
    exact Or.inl inside

/-- A sweep resolves an open conflict only when the conflict set has one member; with
one member, a sweep in which no call fails resolves it, whatever its iteration orders. -/
theorem conflict_resolved_iff (actions : List (Action ID)) (replies : SweepReplies ID)
    (inputID : ID) (members : Finset ID)
    (openConflict : OpenConflict (runEngine actions) inputID members) :
    (Resolved members (sweep replies (runEngine actions)).1 → members.card = 1) ∧
    (replies.Succeeds → members.card = 1 →
      Resolved members (sweep replies (runEngine actions)).1) := by
  have wellformed : Wellformed (runEngine actions) := reachable_wellformed actions
  constructor
  · rintro ⟨winner, member, accepted, _⟩
    rcases (sweep_progress replies (runEngine actions)).granted winner accepted with
      already | ⟨vertexID, _, vertex, found, tx, inside, rfl, clear⟩
    · exact absurd already (openConflict.undecided winner member).1
    · have alone := (openConflict.clear_iff wellformed tx ⟨vertexID, vertex, found, inside⟩
        member).mp clear
      rw [alone, Finset.card_singleton]
  · intro succeeds alone
    obtain ⟨winner, rfl⟩ := Finset.card_eq_one.mp alone
    have member : winner ∈ ({winner} : Finset ID) := Finset.mem_singleton_self winner
    obtain ⟨vertexID, inFrontier, vertex, found, tx, inside, rfl⟩ :=
      openConflict.contained winner member
    have clear : Clear (runEngine actions) tx :=
      (openConflict.clear_iff wellformed tx ⟨vertexID, vertex, found, inside⟩ member).mpr rfl
    refine ⟨tx.id, member, ?_, ?_⟩
    · exact sweep_accepts replies _ (sweep_completes replies succeeds _) vertexID inFrontier vertex
        found tx inside clear (openConflict.undecided tx.id member).2
    · intro other same different
      exact absurd (Finset.mem_singleton.mp same) different

/-- Two vertices without parents; both transactions spend input 9. -/
def rivalRun : List (Action ℕ) :=
  [.processVertex ⟨1, [], [⟨11, [9]⟩], 0⟩ .succeed, .processVertex ⟨2, [], [⟨12, [9]⟩], 0⟩ .succeed]

/-- The first of the two vertices alone. -/
def soloRun : List (Action ℕ) := rivalRun.take 1

/-- What a stored vertex is, in an engine whose vertices are known. -/
theorem processed_among {e : ParallelEngine ℕ} {vertexIDs : Finset ℕ} {txs : List (Tx ℕ)}
    (keys : e.vertices.keys = vertexIDs)
    (listed : ∀ vertexID ∈ vertexIDs, ((e.vertices.lookup vertexID).all fun vertex =>
      vertex.txs.all fun tx => decide (tx ∈ txs)) = true)
    (tx : Tx ℕ) (processed : Processed e tx) : tx ∈ txs := by
  obtain ⟨vertexID, vertex, found, member⟩ := processed
  have key : vertexID ∈ vertexIDs :=
    keys ▸ Finmap.mem_keys.mpr (Finmap.mem_of_lookup_eq_some found)
  have inside := listed vertexID key
  rw [found] at inside
  simpa using List.all_eq_true.mp inside tx member

/-- Neither of two conflicting transactions is decided by the sweep. -/
theorem rivals_undecided :
    OpenConflict (runEngine rivalRun) 9 {11, 12} ∧
      ¬ Resolved {11, 12} (sweep (.succeed .increasing) (runEngine rivalRun)).1 := by
  refine ⟨⟨by decide, by decide, ?_, ?_, ?_⟩, ?_⟩
  · unfold Undecided
    decide
  · intro tx processed _
    have known : tx ∈ [(⟨11, [9]⟩ : Tx ℕ), ⟨12, [9]⟩] :=
      processed_among (by decide : _ = {1, 2}) (by decide) tx processed
    rcases List.mem_pair.mp known with rfl | rfl <;> rfl
  · intro txID member
    rcases Finset.mem_insert.mp member with rfl | second
    · exact ⟨1, by decide, ⟨1, [], [⟨11, [9]⟩], 0⟩, by decide, ⟨11, [9]⟩, by decide, rfl⟩
    · rw [Finset.mem_singleton.mp second]
      exact ⟨2, by decide, ⟨2, [], [⟨12, [9]⟩], 0⟩, by decide, ⟨12, [9]⟩, by decide, rfl⟩
  · rintro ⟨winner, _, accepted, _⟩
    have none : (sweep (.succeed .increasing) (runEngine rivalRun)).1.txsAccepted = ∅ := by decide
    simp [none] at accepted

/-- A single transaction is accepted by the sweep. -/
theorem solo_resolved : Resolved {11} (sweep (.succeed .increasing) (runEngine soloRun)).1 := by
  refine (conflict_resolved_iff soloRun _ 9 {11} ⟨by decide, by decide, ?_, ?_, ?_⟩).2
    (SweepReplies.succeed_succeeds .increasing) (by decide)
  · unfold Undecided
    decide
  · intro tx processed _
    have known : tx ∈ [(⟨11, [9]⟩ : Tx ℕ)] :=
      processed_among (by decide : _ = {1}) (by decide) tx processed
    rw [List.mem_singleton.mp known]
  · intro txID member
    rw [Finset.mem_singleton.mp member]
    exact ⟨1, by decide, ⟨1, [], [⟨11, [9]⟩], 0⟩, by decide, ⟨11, [9]⟩, by decide, rfl⟩

/-- Each registered transaction that shares an input with a different accepted
transaction is rejected. -/
def LosersRejected (e : ParallelEngine ID) : Prop :=
  ∀ loser winner, Processed e loser → (∃ inputID, loser.id ∈ e.conflictSet inputID) →
    Processed e winner → winner.id ∈ e.txsAccepted → winner.id ≠ loser.id →
      ∀ inputID ∈ loser.inputIDs, inputID ∈ winner.inputIDs → loser.id ∈ e.txsRejected

/-- At the end of the sweep the losers are rejected. -/
def RejectsLosers (e : ParallelEngine ID) : Action ID → Prop
  | .processVertex _ _ => True
  | .sweep replies => LosersRejected (sweep replies e).1

/-- A new vertex has genuine transactions, and when the registration loop is reached,
none of its undecided ones shares an input with an accepted transaction. -/
def NoLateLoser (inputIDs : ID → List ID) (e : ParallelEngine ID) : Action ID → Prop
  | .processVertex vertex replies => vertex.id ∈ e.vertices ∨
      vertex.Genuine inputIDs ∧ (replies.Opens → ∀ tx ∈ vertex.txs, Undecided e tx.id →
        ∀ winner, Processed e winner → winner.id ∈ e.txsAccepted →
          ∀ inputID ∈ tx.inputIDs, inputID ∉ winner.inputIDs)
  | .sweep _ => True

/-- The invariant of runs without late losers: registration covers all inputs of a
transaction, and an accepted transaction is alone under each of its inputs. -/
structure WinnersAlone (inputIDs : ID → List ID) (e : ParallelEngine ID) : Prop where
  wellformed : Wellformed e
  genuine : AllGenuine inputIDs e
  full : ∀ inputID, ∀ txID ∈ e.conflictSet inputID,
    ∀ otherInput ∈ inputIDs txID, txID ∈ e.conflictSet otherInput
  alone : ∀ winner ∈ e.txsAccepted, ∀ inputID ∈ inputIDs winner,
    ∀ other ∈ e.conflictSet inputID, other = winner

/-- The new engine has accepted nothing. -/
theorem newParallelEngine_winnersAlone (inputIDs : ID → List ID) :
    WinnersAlone inputIDs (newParallelEngine : ParallelEngine ID) where
  wellformed := newParallelEngine_wellformed
  genuine := newParallelEngine_genuine inputIDs
  full := by simp [newParallelEngine, ParallelEngine.conflictSet]
  alone := by simp [newParallelEngine]

/-- Processing a vertex adds no conflict to an accepted transaction, unless a loser comes late. -/
theorem processVertex_winnersAlone (inputIDs : ID → List ID) (replies : ProcessReplies)
    (vertex : Vertex ID) (e : ParallelEngine ID) (fresh : vertex.id ∉ e.vertices)
    (guarded : NoLateLoser inputIDs e (.processVertex vertex replies))
    (alone : WinnersAlone inputIDs e) :
    WinnersAlone inputIDs (processVertex replies vertex e).1 := by
  have new := processVertex_new replies vertex e fresh
  obtain ⟨genuine, noLateLoser⟩ := guarded.resolve_left fresh
  refine ⟨processVertex_wellformed replies vertex e fresh alone.wellformed,
    step_genuine inputIDs e (.processVertex vertex replies) genuine alone.genuine, ?_, ?_⟩
  · intro inputID txID member otherInput listed
    rcases new.added inputID txID member with old | ⟨_, tx, inside, rfl, _, _, full⟩
    · exact new.kept otherInput (alone.full inputID txID old otherInput listed)
    · exact full otherInput (genuine tx inside ▸ listed)
  · intro winner accepted inputID needed other member
    rw [new.txsAccepted] at accepted
    rcases new.added inputID other member with old | ⟨opens, tx, inside, rfl, input, undecided, _⟩
    · exact alone.alone winner accepted inputID needed other old
    · obtain ⟨holder, processed, rfl⟩ := alone.wellformed.accepted winner accepted
      have shared : inputID ∈ holder.inputIDs := alone.genuine holder processed ▸ needed
      exact absurd shared
        (noLateLoser opens tx inside undecided holder processed accepted inputID input)

/-- A sweep accepts transactions that are alone in their conflicts. -/
theorem sweep_winnersAlone (inputIDs : ID → List ID) (replies : SweepReplies ID)
    (e : ParallelEngine ID) (alone : WinnersAlone inputIDs e) :
    WinnersAlone inputIDs (sweep replies e).1 := by
  have progress := sweep_progress replies e
  refine ⟨sweep_wellformed replies e alone.wellformed,
    step_genuine inputIDs e (.sweep replies) trivial alone.genuine, ?_, ?_⟩
  · intro inputID txID member otherInput listed
    rw [progress.registry.conflictSet] at member ⊢
    exact alone.full inputID txID member otherInput listed
  · intro winner accepted inputID needed other member
    rw [progress.registry.conflictSet] at member
    rcases progress.granted winner accepted with
      already | ⟨vertexID, _, vertex, found, tx, inside, rfl, clear⟩
    · exact alone.alone winner already inputID needed other member
    · have input : inputID ∈ tx.inputIDs :=
        alone.genuine tx ⟨vertexID, vertex, found, inside⟩ ▸ needed
      have cleared := clear inputID input other member
      rw [alone.wellformed.rejected] at cleared
      exact cleared.resolve_right (Finset.notMem_empty other)

/-- Every step leaves the accepted transactions alone in their conflicts, unless a loser comes late.
-/
theorem step_winnersAlone (inputIDs : ID → List ID) (e : ParallelEngine ID) (action : Action ID)
    (guarded : NoLateLoser inputIDs e action) (alone : WinnersAlone inputIDs e) :
    WinnersAlone inputIDs (step e action) := by
  cases action with
  | processVertex vertex replies =>
    apply processVertex_preserves replies vertex e alone
    intro fresh
    exact processVertex_winnersAlone inputIDs replies vertex e fresh guarded alone
  | sweep replies => exact sweep_winnersAlone inputIDs replies e alone

/-- When winners are alone there is no loser to reject. -/
theorem WinnersAlone.losersRejected {inputIDs : ID → List ID} {e : ParallelEngine ID}
    (alone : WinnersAlone inputIDs e) : LosersRejected e := by
  intro loser winner loserProcessed registered winnerProcessed accepted different inputID
    loserInput winnerInput
  obtain ⟨anyInput, member⟩ := registered
  have loserNeeds : inputID ∈ inputIDs loser.id := alone.genuine loser loserProcessed ▸ loserInput
  have winnerNeeds : inputID ∈ inputIDs winner.id :=
    alone.genuine winner winnerProcessed ▸ winnerInput
  have here := alone.full anyInput loser.id member inputID loserNeeds
  exact absurd (alone.alone winner.id accepted inputID winnerNeeds loser.id here).symm different

/-- In every run in which no vertex brings a rival of an accepted transaction, the
losers are rejected at the end of every sweep. -/
theorem losers_rejected (inputIDs : ID → List ID) (actions : List (Action ID))
    (guarded : Runs.Along step (NoLateLoser inputIDs) newParallelEngine actions) :
    Runs.Along step RejectsLosers newParallelEngine actions := by
  refine guarded.imp_of_invariant step (WinnersAlone inputIDs) (step_winnersAlone inputIDs) ?_
    (newParallelEngine_winnersAlone inputIDs)
  intro state action alone _
  cases action with
  | processVertex vertex replies => trivial
  | sweep replies => exact (sweep_winnersAlone inputIDs replies state alone).losersRejected

/-- The second of two conflicting transactions arrives after the first was accepted. -/
def lateRun : List (Action ℕ) :=
  [.processVertex ⟨1, [], [⟨11, [9]⟩], 0⟩ .succeed, .sweep (.succeed .increasing),
    .processVertex ⟨2, [], [⟨12, [9]⟩], 0⟩ .succeed, .sweep (.succeed .increasing)]

/-- The late transaction is registered against the accepted one and never rejected. -/
theorem late_loser_not_rejected : ¬ Runs.Along step RejectsLosers newParallelEngine lateRun := by
  intro along
  have rejects : LosersRejected (runEngine lateRun) := along.2.2.2.1
  have loser : Processed (runEngine lateRun) ⟨12, [9]⟩ :=
    ⟨2, ⟨2, [], [⟨12, [9]⟩], 0⟩, by decide, by decide⟩
  have winner : Processed (runEngine lateRun) ⟨11, [9]⟩ :=
    ⟨1, ⟨1, [], [⟨11, [9]⟩], 0⟩, by decide, by decide⟩
  have accepted : 11 ∈ (runEngine lateRun).txsAccepted := by decide
  have registered : 12 ∈ (runEngine lateRun).conflictSet 9 := by decide
  have unrejected : 12 ∉ (runEngine lateRun).txsRejected := by decide
  exact unrejected (rejects ⟨12, [9]⟩ ⟨11, [9]⟩ loser ⟨9, registered⟩ winner accepted (by decide) 9
    (by decide) (by decide))

/-- A run in which the later transaction spends another input. -/
def unrelatedRun : List (Action ℕ) :=
  [.processVertex ⟨1, [], [⟨11, [9]⟩], 0⟩ .succeed, .sweep (.succeed .increasing),
    .processVertex ⟨2, [], [⟨12, [8]⟩], 0⟩ .succeed, .sweep (.succeed .increasing)]

/-- The inputs the two IDs stand for. -/
def unrelatedInputs (txID : ℕ) : List ℕ := if txID = 11 then [9] else [8]

/-- A run with unrelated transactions has no losers. -/
theorem unrelated_run_rejects_losers :
    Runs.Along step RejectsLosers newParallelEngine unrelatedRun := by
  have first : NoLateLoser unrelatedInputs newParallelEngine
      (.processVertex ⟨1, [], [⟨11, [9]⟩], 0⟩ .succeed) := by
    refine Or.inr ⟨by unfold Vertex.Genuine; decide, ?_⟩
    intro _ tx _ _ winner _ accepted
    exact absurd accepted (Finset.notMem_empty winner.id)
  have second : NoLateLoser unrelatedInputs (runEngine (unrelatedRun.take 2))
      (.processVertex ⟨2, [], [⟨12, [8]⟩], 0⟩ .succeed) := by
    refine Or.inr ⟨by unfold Vertex.Genuine; decide, ?_⟩
    intro _ tx member _ winner processed _ inputID input
    have known : winner ∈ [(⟨11, [9]⟩ : Tx ℕ)] :=
      processed_among (by decide : _ = {1}) (by decide) winner processed
    rw [List.mem_singleton.mp member] at input
    rw [List.mem_singleton.mp known, List.mem_singleton.mp input]
    decide
  exact losers_rejected unrelatedInputs unrelatedRun ⟨first, trivial, second, trivial, trivial⟩

end AvalancheParallel.Consensus
