import AvalancheParallel.Consensus.ParallelDag
import AvalancheParallel.Foundation.RWLock

/-!
# The lock of the parallel DAG

The public operations of `ParallelDAG` with their use of `dag.lock`. Each of them
takes the lock once and defers the release, except `ProcessFrontier`, which calls
`GetFrontier` under the lock. The answers of the methods of a vertex and of the
vertex processor are arguments.
-/

namespace AvalancheParallel.Consensus

open AvalancheParallel.RangeLoop AvalancheParallel.RWLock AvalancheParallel.Choices

variable {V ID : Type} [DecidableEq ID]

/-- The errors of the operations. The text of `unsupportedStatus` names the status. -/
inductive DagError where
  | parents
  | unknownVertex
  | accept
  | reject
  | unsupportedStatus (status : Status)
  | process
deriving DecidableEq

/-- What the methods called by `UpdateStatus` answer for a vertex. -/
structure StatusReplies (V : Type) where
  status : V → Status
  accept : V → Bool
  reject : V → Bool

namespace ParallelDAG

/-- The error of `UpdateStatus`. The loop over the children has an empty body. -/
def updateStatus (id : ID) (status : Status) (replies : StatusReplies V)
    (dag : ParallelDAG V ID) : Option DagError :=
  match dag.vertices.lookup id with
  | none => some .unknownVertex
  | some vertex =>
    if replies.status vertex = status then none
    else
      match status with
      | .accepted => if replies.accept vertex then none else some .accept
      | .rejected => if replies.reject vertex then none else some .reject
      | _ => some (.unsupportedStatus status)

/-- `AddVertex` under its lock. -/
def lockedAddVertex (idOf : V → ID) (vertex : V) (parents : Option (List ID)) :
    Locked (ParallelDAG V ID) (Option DagError) :=
  .withLock (.access fun dag =>
    ((dag.addVertex idOf vertex parents).2.map (fun _ => .parents),
      (dag.addVertex idOf vertex parents).1))

/-- `GetVertex` under its lock. -/
def lockedGetVertex (id : ID) : Locked (ParallelDAG V ID) (Except DagError V) :=
  .withRLock (.access fun dag =>
    (match dag.getVertex id with
      | some vertex => .ok vertex
      | none => .error .unknownVertex, dag))

/-- `GetFrontier` under its lock. -/
def lockedGetFrontier (order : IterationOrder ID) : Locked (ParallelDAG V ID) (List V) :=
  .withRLock (.access fun dag => (dag.getFrontier order, dag))

/-- `ProcessFrontier`; `processBatch` is true when the processor returns no error. -/
def lockedProcessFrontier (order : IterationOrder ID) (processBatch : List V → Bool) :
    Locked (ParallelDAG V ID) (Option DagError) :=
  (Locked.withLock (lockedGetFrontier order)).andThen fun frontierVertices =>
    .access fun dag =>
      (if frontierVertices.isEmpty then none
        else if processBatch frontierVertices then none else some .process, dag)

/-- `UpdateStatus` under its lock. -/
def lockedUpdateStatus (id : ID) (status : Status) (replies : StatusReplies V) :
    Locked (ParallelDAG V ID) (Option DagError) :=
  .withLock (.access fun dag => (dag.updateStatus id status replies, dag))

/-- `Size` under its lock. -/
def lockedSize : Locked (ParallelDAG V ID) ℕ := .withRLock (.access fun dag => (dag.size, dag))

end ParallelDAG

/-- A call of a public operation. -/
inductive DagOperation (V ID : Type) where
  | addVertex (vertex : V) (parents : Option (List ID))
  | getVertex (id : ID)
  | getFrontier (order : IterationOrder ID)
  | processFrontier (order : IterationOrder ID) (processBatch : List V → Bool)
  | updateStatus (id : ID) (status : Status) (replies : StatusReplies V)
  | size

/-- The call runs to its end without a request for a lock it holds and leaves the lock free. -/
def DagOperation.Disciplined (idOf : V → ID) (dag : ParallelDAG V ID) : DagOperation V ID → Prop
  | .addVertex vertex parents => (ParallelDAG.lockedAddVertex idOf vertex parents).Disciplined dag
  | .getVertex id => (ParallelDAG.lockedGetVertex id).Disciplined dag
  | .getFrontier order => (ParallelDAG.lockedGetFrontier order).Disciplined dag
  | .processFrontier order processBatch =>
    (ParallelDAG.lockedProcessFrontier order processBatch).Disciplined dag
  | .updateStatus id status replies =>
    (ParallelDAG.lockedUpdateStatus id status replies).Disciplined dag
  | .size => ParallelDAG.lockedSize.Disciplined dag

/-- The call is one of `ProcessFrontier`. -/
def DagOperation.IsProcessFrontier : DagOperation V ID → Prop
  | .processFrontier _ _ => True
  | _ => False

/-- In every state, the operations that keep to the lock are all but `ProcessFrontier`. -/
theorem lock_discipline_iff (idOf : V → ID) (dag : ParallelDAG V ID)
    (operation : DagOperation V ID) :
    operation.Disciplined idOf dag ↔ ¬ operation.IsProcessFrontier := by
  cases operation with
  | addVertex vertex parents =>
    exact iff_of_true ⟨_, _, Locked.withLock_access _ dag⟩ not_false
  | getVertex id => exact iff_of_true ⟨_, _, Locked.withRLock_access _ dag⟩ not_false
  | getFrontier order => exact iff_of_true ⟨_, _, Locked.withRLock_access _ dag⟩ not_false
  | processFrontier order processBatch =>
    refine iff_of_false ?_ (not_not.mpr trivial)
    rintro ⟨result, after, completed⟩
    have blocked := Locked.withLock_withRLock
      (.access fun dag : ParallelDAG V ID => (dag.getFrontier order, dag)) dag
    simp only [ParallelDAG.lockedProcessFrontier, ParallelDAG.lockedGetFrontier, Locked.andThen,
      blocked, reduceCtorEq] at completed
  | updateStatus id status replies =>
    exact iff_of_true ⟨_, _, Locked.withLock_access _ dag⟩ not_false
  | size => exact iff_of_true ⟨_, _, Locked.withRLock_access _ dag⟩ not_false

/-- `ProcessFrontier` blocks on a new DAG, where nothing is to be processed. -/
theorem new_dag_process_frontier_blocks :
    ParallelDAG.lockedProcessFrontier .increasing (fun _ => true) .free
        (newParallelDAG : ParallelDAG (Vertex ℕ) ℕ) = .error .blocked ∧
      ¬ ∀ operation : DagOperation (Vertex ℕ) ℕ,
        operation.Disciplined Vertex.id newParallelDAG := by
  refine ⟨rfl, ?_⟩
  intro all
  obtain ⟨result, after, completed⟩ := all (.processFrontier .increasing (fun _ => true))
  have blocked : ParallelDAG.lockedProcessFrontier .increasing (fun _ => true) .free
      (newParallelDAG : ParallelDAG (Vertex ℕ) ℕ) = .error .blocked := rfl
  rw [blocked] at completed
  cases completed

end AvalancheParallel.Consensus
