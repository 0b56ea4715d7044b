import AvalancheParallel.Consensus.CompletedSweeps
import AvalancheParallel.Consensus.RegistrationLaws

/-!
# The order in which vertices are accepted

`DecideTxs` is commented as processing vertices in topological order, but
`getFrontier` returns the vertices that are nobody's parent: the children come
first, and a vertex with a recorded child is never visited. A parent is accepted
before its child only when it was accepted before the child arrived.
-/

namespace AvalancheParallel.Consensus

open AvalancheParallel.RangeLoop

variable {ID : Type} [DecidableEq ID]

/-- When the sweep calls `Accept` on a vertex, each recorded parent of it that is in
the vertices map has been accepted before that call. -/
def ParentsFirst (e : ParallelEngine ID) : Action ID → Prop
  | .processVertex _ _ => True
  | .sweep replies => ∀ later vertexID reply earlier,
      (sweep replies e).1.calls = later ++ .acceptVertex vertexID reply :: earlier →
      e.calls <:+ earlier →
      ∀ parent ∈ e.recordedParents vertexID, parent ∈ e.vertices →
        .acceptVertex parent true ∈ earlier

/-- Before the sweep, each frontier vertex whose transactions are all decided or pass
the accept test has its recorded parents accepted, as far as they are in the map. -/
def ParentsReady (e : ParallelEngine ID) : Action ID → Prop
  | .processVertex _ _ => True
  | .sweep _ => ∀ vertexID ∈ e.frontier, ∀ vertex, e.vertices.lookup vertexID = some vertex →
      MayDecide (SweepGrant e) e vertex →
      ∀ parent ∈ e.recordedParents vertexID, parent ∈ e.vertices →
        .acceptVertex parent true ∈ e.calls

/-- A call that follows the calls made before the sweep is one of the sweep. -/
theorem sweep_call (replies : SweepReplies ID) (e : ParallelEngine ID) (call : Call ID)
    (later earlier : List (Call ID)) (calls : (sweep replies e).1.calls = later ++ call :: earlier)
    (since : e.calls <:+ earlier) : SweepCall e call := by
  obtain ⟨made, appended, admitted⟩ := (sweep_progress replies e).calls
  obtain ⟨between, rfl⟩ := since
  have split : made ++ e.calls = (later ++ call :: between) ++ e.calls := by
    rw [← appended, calls]
    simp
  apply admitted
  rw [List.append_cancel_right split]
  exact List.mem_append_right later List.mem_cons_self

/-- A recorded parent is not in the frontier. -/
theorem recordedParents_not_frontier (e : ParallelEngine ID) (vertexID parent : ID)
    (recorded : parent ∈ e.recordedParents vertexID) : parent ∉ e.frontier := by
  intro inFrontier
  have isKey : vertexID ∈ e.edgeMap.keys := by
    by_contra missing
    have absent : e.edgeMap.lookup vertexID = none :=
      Finmap.lookup_eq_none.mpr (fun member => missing (Finmap.mem_keys.mpr member))
    simp [ParallelEngine.recordedParents, absent] at recorded
  apply (Finset.mem_filter.mp inFrontier).2
  exact Finset.mem_biUnion.mpr ⟨vertexID, isKey, List.mem_toFinset.mpr recorded⟩

/-- A sweep calls `Accept` on frontier vertices that may be decided, and on no others. -/
theorem sweep_acceptVertex {e : ParallelEngine ID} (wellformed : Wellformed e) {vertexID : ID}
    {reply : Bool} (admitted : SweepCall e (.acceptVertex vertexID reply)) :
    vertexID ∈ e.frontier ∧ ∃ vertex, e.vertices.lookup vertexID = some vertex ∧
      MayDecide (SweepGrant e) e vertex := by
  rcases admitted with isTx | ⟨visited, inFrontier, vertex, answered, found, same, mayDecide⟩
  · exact isTx.elim
  · have named : vertexID = visited := by
      rw [(Call.acceptVertex.inj same).1]
      exact wellformed.keys visited vertex found
    subst named
    exact ⟨inFrontier, vertex, found, mayDecide⟩

/-- If the parents are accepted before the sweep, they are accepted first. -/
theorem parentsFirst_of_ready {e : ParallelEngine ID} (wellformed : Wellformed e)
    (action : Action ID) (ready : ParentsReady e action) : ParentsFirst e action := by
  cases action with
  | processVertex vertex replies => trivial
  | sweep replies =>
    intro later vertexID reply earlier calls since parent recorded stored
    obtain ⟨inFrontier, vertex, found, mayDecide⟩ :=
      sweep_acceptVertex wellformed (sweep_call replies e _ later earlier calls since)
    exact since.subset (ready vertexID inFrontier vertex found mayDecide parent recorded stored)

/-- With genuine IDs, a vertex that may be decided is acceptable. -/
theorem MayDecide.acceptable {inputIDs : ID → List ID} {e : ParallelEngine ID}
    (wellformed : Wellformed e) (allGenuine : AllGenuine inputIDs e) {vertexID : ID}
    {vertex : Vertex ID} (found : e.vertices.lookup vertexID = some vertex)
    (mayDecide : MayDecide (SweepGrant e) e vertex) : Acceptable e vertex := by
  have unrejected (txID : ID) : txID ∉ e.txsRejected := by simp [wellformed.rejected]
  intro tx member
  rcases mayDecide tx member with rejected | accepted | ⟨other, _, otherVertex, here, twin, inside,
    same, clear⟩
  · exact absurd rejected (unrejected tx.id)
  · exact Or.inl accepted
  · exact Or.inr ⟨allGenuine.clear ⟨other, otherVertex, here, inside⟩
      ⟨vertexID, vertex, found, member⟩ same clear, unrejected tx.id⟩

/-- If the parents are accepted first, they were accepted before the sweep. -/
theorem ready_of_parentsFirst {inputIDs : ID → List ID} {e : ParallelEngine ID}
    (wellformed : Wellformed e) (allGenuine : AllGenuine inputIDs e) (action : Action ID)
    (succeeds : action.Succeeds) (first : ParentsFirst e action) : ParentsReady e action := by
  cases action with
  | processVertex vertex replies => trivial
  | sweep replies =>
    intro vertexID inFrontier vertex found mayDecide parent recorded stored
    obtain ⟨made, appended, member⟩ := sweep_calls replies succeeds e vertexID inFrontier vertex
      found (mayDecide.acceptable wellformed allGenuine found)
    rw [wellformed.keys vertexID vertex found] at member
    obtain ⟨later, between, rfl⟩ := List.append_of_mem member
    have calls : (sweep replies e).1.calls =
        later ++ .acceptVertex vertexID true :: (between ++ e.calls) := by
      rw [appended, List.append_assoc, List.cons_append]
    have accepted := first later vertexID true (between ++ e.calls) calls
      (List.suffix_append between e.calls) parent recorded stored
    rcases List.mem_append.mp accepted with inSweep | before
    · obtain ⟨front, back, rfl⟩ := List.append_of_mem inSweep
      have visited : SweepCall e (.acceptVertex parent true) := by
        refine sweep_call replies e _ (later ++ .acceptVertex vertexID true :: front)
          (back ++ e.calls) ?_ (List.suffix_append back e.calls)
        rw [calls]
        simp
      exact absurd (sweep_acceptVertex wellformed visited).1
        (recordedParents_not_frontier e vertexID parent recorded)
    · exact before

/-- In every run whose sweeps meet `ParentsReady`, parents are accepted before their
children. When IDs are genuine and no call fails, these are the only such runs. -/
theorem parents_accepted_first (inputIDs : ID → List ID) (actions : List (Action ID)) :
    (Runs.Along step ParentsReady newParallelEngine actions →
      Runs.Along step ParentsFirst newParallelEngine actions) ∧
    ((∀ action ∈ actions, action.Genuine inputIDs ∧ action.Succeeds) →
      Runs.Along step ParentsFirst newParallelEngine actions →
        Runs.Along step ParentsReady newParallelEngine actions) := by
  constructor
  · intro ready
    exact ready.imp_of_invariant step Wellformed
      (fun state action _ wellformed => step_wellformed state action wellformed)
      (fun _ action wellformed => parentsFirst_of_ready wellformed action)
      newParallelEngine_wellformed
  · intro conditions first
    refine (first.and step (Runs.Along.of_forall step _ conditions)).imp_of_invariant step
      (fun state => Wellformed state ∧ AllGenuine inputIDs state) ?_ ?_
      ⟨newParallelEngine_wellformed, newParallelEngine_genuine inputIDs⟩
    · rintro state action ⟨_, genuine, _⟩ ⟨wellformed, allGenuine⟩
      exact ⟨step_wellformed state action wellformed,
        step_genuine inputIDs state action genuine allGenuine⟩
    · rintro state action ⟨wellformed, allGenuine⟩ ⟨parentsFirst, _, succeeds⟩
      exact ready_of_parentsFirst wellformed allGenuine action succeeds parentsFirst

/-- A parent and its child, processed before the first sweep. -/
def familyRun : List (Action ℕ) :=
  [.processVertex ⟨1, [], [⟨11, [8]⟩], 0⟩ .succeed,
    .processVertex ⟨2, [1], [⟨12, [9]⟩], 0⟩ .succeed,
    .sweep (.succeed .increasing)]

/-- The child is accepted and its parent is not. -/
theorem child_accepted_first : ¬ Runs.Along step ParentsFirst newParallelEngine familyRun := by
  rintro ⟨_, _, first, _⟩
  have accepted := first [] 2 true [.acceptTx 12 true] (by decide) (by decide) 1 (by decide)
    (by decide)
  exact absurd accepted (by decide)

/-- The same two vertices, the parent decided before its child arrives. -/
def orderedRun : List (Action ℕ) :=
  [.processVertex ⟨1, [], [⟨11, [8]⟩], 0⟩ .succeed,
    .sweep (.succeed .increasing),
    .processVertex ⟨2, [1], [⟨12, [9]⟩], 0⟩ .succeed,
    .sweep (.succeed .increasing)]

/-- In this order the parent is accepted first. -/
theorem ordered_run_parents_first : Runs.Along step ParentsFirst newParallelEngine orderedRun := by
  have firstSweep : ∀ vertexID ∈ (runEngine (orderedRun.take 1)).frontier,
      ∀ parent ∈ (runEngine (orderedRun.take 1)).recordedParents vertexID,
        .acceptVertex parent true ∈ (runEngine (orderedRun.take 1)).calls := by decide
  have secondSweep : ∀ vertexID ∈ (runEngine (orderedRun.take 3)).frontier,
      ∀ parent ∈ (runEngine (orderedRun.take 3)).recordedParents vertexID,
        .acceptVertex parent true ∈ (runEngine (orderedRun.take 3)).calls := by decide
  refine (parents_accepted_first (fun _ => []) orderedRun).1 ⟨trivial, ?_, trivial, ?_, trivial⟩
  · intro vertexID inFrontier _ _ _ parent recorded _
    exact firstSweep vertexID inFrontier parent recorded
  · intro vertexID inFrontier _ _ _ parent recorded _
    exact secondSweep vertexID inFrontier parent recorded

end AvalancheParallel.Consensus
