import AvalancheParallel.Consensus.RegistrationLaws
import AvalancheParallel.Foundation.Arbitration

/-!
# Conflicting transactions are not both accepted

The engine is an arbiter of inputs: `conflicts` is the registration of
transactions on inputs and `txsAccepted` the set of grants. When every processed
transaction is registered under its inputs, each engine step is a step of
`Arbitration`, and accepted transactions never share an input.

Registration is not guaranteed by the code. `ProcessVertex` stores a vertex
before it calls `Parents`, `Verify`, `Txs` and `InputIDs`; when one of them
fails, the transactions of the stored vertex stay unregistered and the decision
loop accepts them against no recorded conflict.
-/

namespace AvalancheParallel.Consensus

open AvalancheParallel.RangeLoop

variable {ID : Type} [DecidableEq ID]

/-- No two accepted processed transactions with different IDs share an input, and
no transaction is both accepted and rejected. -/
def ConflictFree (e : ParallelEngine ID) : Prop :=
  (∀ first second, Processed e first → Processed e second →
    first.id ∈ e.txsAccepted → second.id ∈ e.txsAccepted → first.id ≠ second.id →
      ∀ inputID ∈ first.inputIDs, inputID ∉ second.inputIDs) ∧
    Disjoint e.txsAccepted e.txsRejected

/-- Processing a new vertex leaves all its transactions registered: every method
call of `ProcessVertex` succeeds, or the transactions were registered before. -/
def RegistersAll (inputIDs : ID → List ID) (e : ParallelEngine ID) : Action ID → Prop
  | .processVertex vertex replies => vertex.id ∈ e.vertices ∨
      vertex.Genuine inputIDs ∧ (replies.Complete ∨
        ∀ tx ∈ vertex.txs, ∀ inputID ∈ tx.inputIDs, tx.id ∈ e.conflictSet inputID)
  | .sweep _ => True

/-- Every processed transaction is registered under the inputs its ID stands for. -/
def AllRegistered (inputIDs : ID → List ID) (e : ParallelEngine ID) : Prop :=
  ∀ tx, Processed e tx → tx.inputIDs = inputIDs tx.id ∧
    ∀ inputID ∈ tx.inputIDs, tx.id ∈ e.conflictSet inputID

/-- An accepted ID carries the inputs of the processed transaction it was accepted for,
so a genuine transaction with that ID is registered already. -/
theorem AllRegistered.of_decided {inputIDs : ID → List ID} {e : ParallelEngine ID}
    (registered : AllRegistered inputIDs e) (wellformed : Wellformed e) (tx : Tx ID)
    (genuine : tx.inputIDs = inputIDs tx.id) (decided : ¬ Undecided e tx.id) :
    ∀ inputID ∈ tx.inputIDs, tx.id ∈ e.conflictSet inputID := by
  have accepted : tx.id ∈ e.txsAccepted := by
    by_contra unaccepted
    exact decided ⟨unaccepted, by simp [wellformed.rejected]⟩
  obtain ⟨earlier, processed, same⟩ := wellformed.accepted tx.id accepted
  obtain ⟨inputs, present⟩ := registered earlier processed
  have sameInputs : earlier.inputIDs = tx.inputIDs := by rw [inputs, genuine, same]
  intro inputID member
  rw [← same]
  exact present inputID (sameInputs ▸ member)

/-- Every step keeps the transactions of the vertices registered for their inputs. -/
theorem step_allRegistered (inputIDs : ID → List ID) (e : ParallelEngine ID) (action : Action ID)
    (guarded : RegistersAll inputIDs e action) (wellformed : Wellformed e)
    (registered : AllRegistered inputIDs e) : AllRegistered inputIDs (step e action) := by
  cases action with
  | sweep replies =>
    have same := (sweep_progress replies e).registry
    intro tx processed
    obtain ⟨vertexID, vertex, found, member⟩ := processed
    change (sweep replies e).1.vertices.lookup vertexID = some vertex at found
    rw [same.vertices] at found
    obtain ⟨inputs, present⟩ := registered tx ⟨vertexID, vertex, found, member⟩
    refine ⟨inputs, fun inputID input => ?_⟩
    change tx.id ∈ (sweep replies e).1.conflictSet inputID
    rw [same.conflictSet]
    exact present inputID input
  | processVertex vertex replies =>
    apply processVertex_preserves replies vertex e registered
    intro fresh tx processed
    obtain ⟨genuine, covered⟩ := guarded.resolve_left fresh
    have new := processVertex_new replies vertex e fresh
    rcases processed_new new.vertices tx processed with member | earlier
    · refine ⟨genuine tx member, fun inputID input => ?_⟩
      rcases covered with complete | already
      · by_cases undecided : Undecided e tx.id
        · exact new.complete complete tx member undecided inputID input
        · exact new.kept inputID (registered.of_decided wellformed tx (genuine tx member)
            undecided inputID input)
      · exact new.kept inputID (already tx member inputID input)
    · obtain ⟨inputs, present⟩ := registered tx earlier
      exact ⟨inputs, fun inputID input => new.kept inputID (present inputID input)⟩

/-- The engine as an arbiter of inputs. -/
def allocation (e : ParallelEngine ID) : Arbitration.Allocation ID ID where
  registered := fun inputID => ↑(e.conflictSet inputID)
  granted := ↑e.txsAccepted

/-- The inputs a transaction ID stands for, as the needs of a user. -/
def needs (inputIDs : ID → List ID) : ID → Set ID := fun txID => {inputID | inputID ∈ inputIDs txID}

/-- Each engine step refines one step of the arbiter: processing registers, a
sweep is a round of grants. -/
theorem step_refines (inputIDs : ID → List ID) (e : ParallelEngine ID) (action : Action ID)
    (wellformed : Wellformed e) (registered : AllRegistered inputIDs e) :
    Arbitration.Step (needs inputIDs) (allocation e) (allocation (step e action)) := by
  cases action with
  | processVertex vertex replies =>
    by_cases known : vertex.id ∈ e.vertices
    · simp only [step, processVertex_known replies vertex e known]
      exact .register _ _ (fun _ => subset_rfl) rfl
    · have new := processVertex_new replies vertex e known
      refine .register _ _ (fun inputID => Finset.coe_subset.mpr (new.kept inputID)) ?_
      exact congrArg (fun txs : Finset ID => (txs : Set ID)) new.txsAccepted
  | sweep replies =>
    have progress := sweep_progress replies e
    have granted :
        ∀ txID, SweepGrant e txID → ∃ tx, Processed e tx ∧ tx.id = txID ∧ Clear e tx := by
      rintro txID ⟨vertexID, _, vertex, found, tx, member, same, clear⟩
      exact ⟨tx, ⟨vertexID, vertex, found, member⟩, same, clear⟩
    have sameSets : (allocation (sweep replies e).1).registered = (allocation e).registered := by
      funext inputID
      simp only [allocation, progress.registry.conflictSet]
    refine .grant _ _ {txID | txID ∈ (sweep replies e).1.txsAccepted ∧ SweepGrant e txID}
      sameSets ?_ ?_ ?_
    · ext txID
      constructor
      · intro member
        exact (progress.granted txID member).imp_right (fun grant => ⟨member, grant⟩)
      · rintro (already | ⟨member, _⟩)
        · exact progress.kept already
        · exact member
    · rintro txID ⟨_, grant⟩ inputID needed
      obtain ⟨tx, processed, rfl, _⟩ := granted txID grant
      obtain ⟨inputs, present⟩ := registered tx processed
      exact present inputID (inputs ▸ needed)
    · rintro txID ⟨_, grant⟩ inputID needed other present
      obtain ⟨tx, processed, rfl, clear⟩ := granted txID grant
      obtain ⟨inputs, _⟩ := registered tx processed
      have input : inputID ∈ tx.inputIDs := inputs ▸ needed
      have cleared := clear inputID input other present
      rw [wellformed.rejected] at cleared
      exact cleared.resolve_right (Finset.notMem_empty other)

/-- The invariant of runs that register every transaction. -/
structure Safe (inputIDs : ID → List ID) (e : ParallelEngine ID) : Prop where
  wellformed : Wellformed e
  registered : AllRegistered inputIDs e
  exclusive : Arbitration.Exclusive (needs inputIDs) (allocation e)

/-- Every step keeps the accepted transactions free of conflicts. -/
theorem step_safe (inputIDs : ID → List ID) (e : ParallelEngine ID) (action : Action ID)
    (guarded : RegistersAll inputIDs e action) (safe : Safe inputIDs e) :
    Safe inputIDs (step e action) where
  wellformed := step_wellformed e action safe.wellformed
  registered := step_allRegistered inputIDs e action guarded safe.wellformed safe.registered
  exclusive := (step_refines inputIDs e action safe.wellformed safe.registered).exclusive _
    safe.exclusive

/-- The new engine has neither transactions nor conflicts. -/
theorem newParallelEngine_safe (inputIDs : ID → List ID) :
    Safe inputIDs (newParallelEngine : ParallelEngine ID) where
  wellformed := newParallelEngine_wellformed
  registered := by
    rintro tx ⟨vertexID, vertex, found, _⟩
    simp [newParallelEngine] at found
  exclusive := by constructor <;> simp [allocation, newParallelEngine]

/-- Grants of the arbiter that do not overlap are accepted transactions without conflict. -/
theorem Safe.conflictFree {inputIDs : ID → List ID} {e : ParallelEngine ID}
    (safe : Safe inputIDs e) : ConflictFree e := by
  refine ⟨?_, by simp [safe.wellformed.rejected]⟩
  intro first second firstProcessed secondProcessed firstAccepted secondAccepted different
    inputID firstInput secondInput
  have firstNeeds : inputID ∈ inputIDs first.id :=
    (safe.registered first firstProcessed).1 ▸ firstInput
  have secondNeeds : inputID ∈ inputIDs second.id :=
    (safe.registered second secondProcessed).1 ▸ secondInput
  exact different (safe.exclusive.disjoint first.id firstAccepted second.id secondAccepted
    inputID firstNeeds secondNeeds)

/-- In every run in which each newly processed vertex gets all its transactions
registered, for any replies and iteration orders of the sweeps, accepted
transactions are free of conflicts in the state reached. -/
theorem accepted_conflict_free (inputIDs : ID → List ID) (actions : List (Action ID))
    (registering : Runs.Along step (RegistersAll inputIDs) newParallelEngine actions) :
    ConflictFree (runEngine actions) :=
  (registering.invariant step (Safe inputIDs) (step_safe inputIDs)
    (newParallelEngine_safe inputIDs)).conflictFree

/-- Two vertices with one transaction each; both transactions spend input 9. -/
def conflictingVertices : Vertex ℕ × Vertex ℕ :=
  (⟨1, [], [⟨11, [9]⟩], 0⟩, ⟨2, [], [⟨12, [9]⟩], 0⟩)

/-- A run whose first vertex fails `Verify` and is decided before the second arrives. -/
def unverifiedRun : List (Action ℕ) :=
  [.processVertex conflictingVertices.1 { ProcessReplies.succeed with verify := false },
    .sweep (.succeed .increasing),
    .processVertex conflictingVertices.2 .succeed,
    .sweep (.succeed .increasing)]

/-- Both conflicting transactions are accepted when the vertex of one of them failed
verification: its transaction was never registered. -/
theorem unverified_vertex_double_accept : ¬ ConflictFree (runEngine unverifiedRun) := by
  intro conflictFree
  have first : Processed (runEngine unverifiedRun) ⟨11, [9]⟩ :=
    ⟨1, conflictingVertices.1, by decide, by decide⟩
  have second : Processed (runEngine unverifiedRun) ⟨12, [9]⟩ :=
    ⟨2, conflictingVertices.2, by decide, by decide⟩
  exact conflictFree.1 _ _ first second (by decide) (by decide) (by decide) 9 (by decide)
    (by decide)

/-- The same two vertices, both verified, with the second arriving after the decision
on the first. -/
def verifiedRun : List (Action ℕ) :=
  [.processVertex conflictingVertices.1 .succeed,
    .sweep (.succeed .increasing),
    .processVertex conflictingVertices.2 .succeed,
    .sweep (.succeed .increasing)]

/-- With both vertices registered, only the earlier transaction is accepted. -/
theorem verified_run_conflict_free :
    (runEngine verifiedRun).txsAccepted = {11} ∧ ConflictFree (runEngine verifiedRun) := by
  refine ⟨by decide, accepted_conflict_free (fun _ => [9]) verifiedRun ?_⟩
  refine ⟨Or.inr ⟨?_, Or.inl ⟨rfl, rfl, rfl, fun _ => rfl⟩⟩, trivial,
    Or.inr ⟨?_, Or.inl ⟨rfl, rfl, rfl, fun _ => rfl⟩⟩, trivial, trivial⟩
  all_goals simp [Vertex.Genuine, conflictingVertices]

end AvalancheParallel.Consensus
