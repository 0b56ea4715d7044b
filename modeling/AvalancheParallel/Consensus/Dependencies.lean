import AvalancheParallel.Chain.Identity
import AvalancheParallel.Consensus.CompletedSweeps
import AvalancheParallel.Consensus.RegistrationLaws

/-!
# The order in which transactions are accepted

`InputIDs` of a `blockchain.Transaction` are the IDs of the transactions that must
be accepted before it. The engine takes them for the names of contested inputs:
whether a dependency is accepted is never asked, and a transaction is accepted as
soon as no other one has the same dependency. Dependencies come first only when
they were accepted before the sweep or are met earlier in it.
-/

namespace AvalancheParallel.Consensus

open AvalancheParallel.RangeLoop

/-- A `*blockchain.Transaction` with the transactions added to it as dependencies. -/
structure DependentTx where
  transaction : Chain.Transaction
  deps : List (Tx Ids.ID)

namespace DependentTx

/-- `AddDependency`. -/
def addDependency (dep : Tx Ids.ID) (tx : DependentTx) : DependentTx :=
  { tx with deps := tx.deps ++ [dep] }

/-- `InputIDs`. It returns no error. -/
def inputIDs (tx : DependentTx) : List Ids.ID := tx.deps.map Tx.id

/-- The transaction as the engine sees it. -/
def toTx (tx : DependentTx) : Tx Ids.ID := ⟨tx.transaction.id, tx.inputIDs⟩

end DependentTx

variable {ID : Type} [DecidableEq ID]

/-- Whenever the step adds a transaction to `txsAccepted`, all its `InputIDs` are there
already. `ProcessVertex` adds none; a sweep adds a transaction when it visits it. -/
def DependenciesFirst (e : ParallelEngine ID) : Action ID → Prop
  | .processVertex vertex replies => (processVertex replies vertex e).1.txsAccepted ⊆ e.txsAccepted
  | .sweep replies => ∀ done vertexID before vertex doneTxs tx here,
      Visits (fun index => decideVertex (replies.vertex index)) (e.getFrontier replies.order) e
        done vertexID before →
      before.vertices.lookup vertexID = some vertex → (replies.vertex done.length).txs = true →
      Visits (fun index => decideTx ((replies.vertex done.length).tx index)) vertex.txs before
        doneTxs tx here →
      tx.id ∉ here.txsAccepted →
      tx.id ∈ (decideTx ((replies.vertex done.length).tx doneTxs.length) tx here).1.txsAccepted →
      ∀ inputID ∈ tx.inputIDs, inputID ∈ here.txsAccepted

/-- The ID belongs to a transaction that passes the accept test, in one of the vertices or
one of the transactions visited before. -/
def MetBefore (e : ParallelEngine ID) (done : List ID) (doneTxs : List (Tx ID)) (txID : ID) :
    Prop :=
  (∃ vertexID ∈ done, VertexGrant e vertexID txID) ∨ ∃ tx ∈ doneTxs, tx.id = txID ∧ Clear e tx

/-- Each transaction of a frontier vertex that passes the accept test, is not accepted and
is met for the first time has every input accepted or met before. -/
def DependenciesReady (e : ParallelEngine ID) : Action ID → Prop
  | .processVertex _ _ => True
  | .sweep replies => ∀ done vertexID rest vertex doneTxs tx restTxs,
      e.getFrontier replies.order = done ++ vertexID :: rest →
      e.vertices.lookup vertexID = some vertex → vertex.txs = doneTxs ++ tx :: restTxs →
      Clear e tx → tx.id ∉ e.txsAccepted → ¬ MetBefore e done doneTxs tx.id →
      ∀ inputID ∈ tx.inputIDs, inputID ∈ e.txsAccepted ∨ MetBefore e done doneTxs inputID

/-- The part of a sweep before a vertex has accepted what its vertices grant. -/
theorem vertexLoop_accepted (replies : ℕ → VertexReplies ID) (done : List ID)
    (e before : ParallelEngine ID) (noneRejected : e.txsRejected = ∅)
    (completed : forRange (fun index => decideVertex (replies index)) done e = (before, none)) :
    SameRegistry e before ∧ ∀ txID, txID ∈ before.txsAccepted ↔
      txID ∈ e.txsAccepted ∨ ∃ vertexID ∈ done, VertexGrant e vertexID txID := by
  have progress : Progress (fun _ => True) (fun txID => ∃ vertexID ∈ done,
      VertexGrant e vertexID txID) e before := by
    have loop : Progress (fun _ => True) (fun txID => ∃ vertexID ∈ done,
        VertexGrant e vertexID txID) e
        (forRange (fun index => decideVertex (replies index)) done e).1 := by
      apply Progress.forRange
      intro index vertexID member state earlier
      refine (decideVertex_progress (replies index) vertexID state).mono (fun _ _ => trivial) ?_
      rintro txID ⟨vertex, found, tx, inside, same, clear⟩
      exact ⟨vertexID, member, vertex, earlier.registry.vertices ▸ found, tx, inside, same,
        (earlier.registry.clear tx).mp clear⟩
    rw [completed] at loop
    exact loop
  have accepts := vertexLoop_accepts replies done e (by rw [completed])
  rw [completed] at accepts
  refine ⟨progress.registry, fun txID => ⟨progress.granted txID, ?_⟩⟩
  rintro (already | ⟨vertexID, member, vertex, found, tx, inside, rfl, clear⟩)
  · exact progress.kept already
  · exact accepts vertexID member vertex found tx inside clear (by simp [noneRejected])

/-- The part of a vertex before a transaction has accepted its clear transactions. -/
theorem txLoop_accepted (replies : ℕ → TxReplies ID) (doneTxs : List (Tx ID))
    (e here : ParallelEngine ID) (noneRejected : e.txsRejected = ∅)
    (completed : forRange (fun index => decideTx (replies index)) doneTxs e = (here, none)) :
    SameRegistry e here ∧ ∀ txID, txID ∈ here.txsAccepted ↔
      txID ∈ e.txsAccepted ∨ ∃ tx ∈ doneTxs, tx.id = txID ∧ Clear e tx := by
  have progress := decideTxLoop_progress replies doneTxs e
  have accepts := decideTxLoop_accepts replies doneTxs e (by rw [completed])
  rw [completed] at progress accepts
  refine ⟨progress.registry, fun txID => ⟨progress.granted txID, ?_⟩⟩
  rintro (already | ⟨tx, member, rfl, clear⟩)
  · exact progress.kept already
  · exact accepts tx member clear (by simp [noneRejected])

/-- What is accepted when a sweep comes to a transaction is known before the sweep. -/
theorem visit_accepted {e before here : ParallelEngine ID} (noneRejected : e.txsRejected = ∅)
    {replies : ℕ → VertexReplies ID} {txReplies : ℕ → TxReplies ID} {done : List ID}
    {doneTxs : List (Tx ID)}
    (vertices : forRange (fun index => decideVertex (replies index)) done e = (before, none))
    (txs : forRange (fun index => decideTx (txReplies index)) doneTxs before = (here, none)) :
    SameRegistry e here ∧ ∀ txID, txID ∈ here.txsAccepted ↔
      txID ∈ e.txsAccepted ∨ MetBefore e done doneTxs txID := by
  obtain ⟨sameBefore, acceptedBefore⟩ := vertexLoop_accepted replies done e before noneRejected
    vertices
  obtain ⟨sameHere, acceptedHere⟩ := txLoop_accepted txReplies doneTxs before here
    (by rw [sameBefore.txsRejected, noneRejected]) txs
  refine ⟨sameBefore.trans sameHere, ?_⟩
  intro txID
  simp only [acceptedHere txID, acceptedBefore txID, sameBefore.clear, MetBefore, or_assoc]

/-- If the dependencies are accepted before the sweep, they are accepted first. -/
theorem dependenciesFirst_of_ready {e : ParallelEngine ID} (wellformed : Wellformed e)
    (action : Action ID) (ready : DependenciesReady e action) : DependenciesFirst e action := by
  cases action with
  | processVertex vertex replies =>
    have unchanged : (processVertex replies vertex e).1.txsAccepted = e.txsAccepted := by
      by_cases known : vertex.id ∈ e.vertices
      · rw [processVertex_known replies vertex e known]
      · exact (processVertex_new replies vertex e known).txsAccepted
    exact unchanged.subset
  | sweep replies =>
    intro done vertexID before vertex doneTxs tx here visit found _ visitTx fresh added inputID
      input
    obtain ⟨⟨rest, frontier⟩, vertices⟩ := visit
    obtain ⟨⟨restTxs, inside⟩, txs⟩ := visitTx
    obtain ⟨sameHere, accepted⟩ := visit_accepted wellformed.rejected vertices txs
    have stored : e.vertices.lookup vertexID = some vertex := by
      rw [← (vertexLoop_accepted _ done e before wellformed.rejected vertices).1.vertices]
      exact found
    have clear : Clear e tx := by
      have granted := (decideTx_progress _ tx here).granted tx.id added
      exact (sameHere.clear tx).mp (granted.resolve_left fresh).2
    rw [accepted] at fresh
    obtain ⟨undecided, first⟩ := not_or.mp fresh
    exact (accepted inputID).mpr (ready done vertexID rest vertex doneTxs tx restTxs frontier stored
      inside clear undecided first inputID input)

/-- If the dependencies are accepted first, they were accepted before the sweep. -/
theorem ready_of_dependenciesFirst {e : ParallelEngine ID} (wellformed : Wellformed e)
    (action : Action ID) (succeeds : action.Succeeds) (first : DependenciesFirst e action) :
    DependenciesReady e action := by
  cases action with
  | processVertex vertex replies => trivial
  | sweep replies =>
    intro done vertexID rest vertex doneTxs tx restTxs frontier stored inside clear undecided new
      inputID input
    let vertexReplies := replies.vertex done.length
    -- without errors the sweep gets to the transaction
    have doneStored : ∀ other ∈ done, other ∈ e.vertices := by
      intro other member
      apply getFrontier_stored replies.order e other
      rw [frontier]
      exact List.mem_append_left _ member
    have verticesDone := vertexLoop_completes replies.vertex succeeds done e doneStored
    obtain ⟨before, vertices⟩ : ∃ before, forRange (fun index =>
        decideVertex (replies.vertex index)) done e = (before, none) :=
      ⟨_, Prod.ext rfl verticesDone⟩
    have txsDone := decideTxLoop_completes vertexReplies.tx (succeeds done.length).tx doneTxs before
    obtain ⟨here, txs⟩ : ∃ here, forRange (fun index => decideTx (vertexReplies.tx index)) doneTxs
        before = (here, none) := ⟨_, Prod.ext rfl txsDone⟩
    obtain ⟨sameHere, accepted⟩ := visit_accepted wellformed.rejected vertices txs
    have sameBefore := (vertexLoop_accepted _ done e before wellformed.rejected vertices).1
    have fresh : tx.id ∉ here.txsAccepted := by
      rw [accepted]
      exact not_or.mpr ⟨undecided, new⟩
    have added : tx.id ∈ (decideTx (vertexReplies.tx doneTxs.length) tx here).1.txsAccepted := by
      apply decideTx_accepts _ tx here ((sameHere.clear tx).mpr clear)
      · simp [sameHere.txsRejected, wellformed.rejected]
      · exact decideTx_completes _ ((succeeds done.length).tx doneTxs.length) tx here
    have found : before.vertices.lookup vertexID = some vertex := by
      rw [sameBefore.vertices]
      exact stored
    exact (accepted inputID).mp (first done vertexID before vertex doneTxs tx here
      ⟨⟨rest, frontier⟩, vertices⟩ found (succeeds done.length).txs ⟨⟨restTxs, inside⟩, txs⟩ fresh
      added inputID input)

/-- In every run whose sweeps find the dependencies ready, a transaction is accepted only
after all its dependencies. When no call of a sweep fails, these are the only such runs. -/
theorem dependencies_accepted_first (actions : List (Action ID)) :
    (Runs.Along step DependenciesReady newParallelEngine actions →
      Runs.Along step DependenciesFirst newParallelEngine actions) ∧
    ((∀ action ∈ actions, action.Succeeds) →
      Runs.Along step DependenciesFirst newParallelEngine actions →
        Runs.Along step DependenciesReady newParallelEngine actions) := by
  constructor
  · intro ready
    exact ready.imp_of_invariant step Wellformed
      (fun state action _ wellformed => step_wellformed state action wellformed)
      (fun _ action wellformed => dependenciesFirst_of_ready wellformed action)
      newParallelEngine_wellformed
  · intro succeeds first
    refine (first.and step (Runs.Along.of_forall step _ succeeds)).imp_of_invariant step Wellformed
      (fun state action _ wellformed => step_wellformed state action wellformed) ?_
      newParallelEngine_wellformed
    rintro state action wellformed ⟨dependenciesFirst, unfailing⟩
    exact ready_of_dependenciesFirst wellformed action unfailing dependenciesFirst

/-- A transfer, and a transfer that depends on it. -/
def firstTx : DependentTx :=
  ⟨Chain.newTransaction Chain.positionalHash 0 Chain.alice Chain.bob 100 1, []⟩

def secondTx : DependentTx :=
  DependentTx.addDependency firstTx.toTx
    ⟨Chain.newTransaction Chain.positionalHash 1 Chain.bob Chain.charlie 50 1, []⟩

/-- A vertex without parents that holds one transaction. -/
def holding (number : UInt8) (tx : DependentTx) : Vertex Ids.ID :=
  ⟨Vector.replicate 32 number, [], [tx.toTx], 0⟩

/-- The dependent transfer is processed and decided alone. -/
def loneRun : List (Action Ids.ID) :=
  [.processVertex (holding 2 secondTx) .succeed, .sweep (.succeed (Ids.byValue 32))]

/-- It is accepted although the transfer it depends on is unknown. -/
theorem dependent_accepted_alone :
    (runEngine loneRun).txsAccepted = {secondTx.transaction.id} ∧
      secondTx.inputIDs = [firstTx.transaction.id] ∧
      ¬ Runs.Along step DependenciesFirst newParallelEngine loneRun := by
  refine ⟨by decide +kernel, by decide +kernel, ?_⟩
  rintro ⟨_, first, _⟩
  have accepted := first [] (holding 2 secondTx).id _ (holding 2 secondTx) [] secondTx.toTx _
    ⟨⟨[], by decide +kernel⟩, rfl⟩ (by decide +kernel) rfl ⟨⟨[], rfl⟩, rfl⟩ (by decide +kernel)
    (by decide +kernel) firstTx.transaction.id (by decide +kernel)
  exact absurd accepted (by decide +kernel)

/-- A sweep is ready when its frontier asks for accepted dependencies only. -/
theorem ready_of_accepted {e : ParallelEngine ID} {replies : SweepReplies ID}
    (accepted : ∀ vertexID ∈ e.getFrontier replies.order, ∀ vertex ∈ e.vertices.lookup vertexID,
      ∀ tx ∈ vertex.txs, ∀ inputID ∈ tx.inputIDs, inputID ∈ e.txsAccepted) :
    DependenciesReady e (.sweep replies) := by
  intro done vertexID rest vertex doneTxs tx restTxs frontier stored inside _ _ _ inputID input
  refine Or.inl (accepted vertexID ?_ vertex stored tx ?_ inputID input)
  · rw [frontier]
    exact List.mem_append_right done List.mem_cons_self
  · rw [inside]
    exact List.mem_append_right doneTxs List.mem_cons_self

/-- The transfers processed and decided one after the other. -/
def chainedRun : List (Action Ids.ID) :=
  [.processVertex (holding 1 firstTx) .succeed, .sweep (.succeed (Ids.byValue 32)),
    .processVertex (holding 2 secondTx) .succeed, .sweep (.succeed (Ids.byValue 32))]

/-- In this order the dependency is accepted first. -/
theorem chained_run_dependencies_first :
    Runs.Along step DependenciesFirst newParallelEngine chainedRun := by
  refine (dependencies_accepted_first chainedRun).1 ⟨trivial, ?_, trivial, ?_, trivial⟩
  · exact ready_of_accepted (by decide +kernel)
  · exact ready_of_accepted (by decide +kernel)

end AvalancheParallel.Consensus
