import AvalancheParallel.Chain.ChainLaws

/-!
# Decisions on blocks and transactions

`Accept` and `Reject` of `pkg/blockchain/block.go` and `transaction.go`, and
`ParallelDAG.UpdateStatus` of `pkg/consensus/dag.go` on vertices that are blocks.
A decision on a block is passed on to its transactions, which other blocks may
share. None of the calls looks at earlier decisions, except that `UpdateStatus`
does nothing when the status is the current one. `choices.Decidable` promises that
a decision is never changed; this holds exactly for the sequences of calls that
never ask for the opposite of a decision already made.
-/

namespace AvalancheParallel.Chain

open AvalancheParallel.RangeLoop AvalancheParallel.Ids AvalancheParallel.Choices

/-- The vertices of the DAG and the status fields of the objects. -/
structure Decisions where
  vertices : GoMap ID Block
  blockStatus : Block → Status
  txStatus : Transaction → Status

/-- Before the first call everything is processing. -/
def undecided (vertices : GoMap ID Block) : Decisions :=
  ⟨vertices, fun _ => .processing, fun _ => .processing⟩

/-- Set the status of a transaction. -/
def Transaction.mark (status : Status) (tx : Transaction) (state : Decisions) : Decisions :=
  { state with txStatus := Function.update state.txStatus tx status }

/-- `Transaction.Accept`. It returns no error. -/
def Transaction.accept : Transaction → Decisions → Decisions := Transaction.mark .accepted

/-- `Transaction.Reject`. It returns no error. -/
def Transaction.reject : Transaction → Decisions → Decisions := Transaction.mark .rejected

/-- Set the status of a block, and then that of each of its transactions. -/
def Block.mark (status : Status) (block : Block) (state : Decisions) : Decisions :=
  block.transactions.foldl (fun state tx => tx.mark status state)
    { state with blockStatus := Function.update state.blockStatus block status }

/-- `Block.Accept`. -/
def Block.accept : Block → Decisions → Decisions := Block.mark .accepted

/-- `Block.Reject`. -/
def Block.reject : Block → Decisions → Decisions := Block.mark .rejected

/-- The errors of `UpdateStatus`. -/
inductive UpdateError where
  | unknownVertex
  | unsupportedStatus (status : Status)
deriving DecidableEq

/-- `ParallelDAG.UpdateStatus`. The loop over the children has an empty body. -/
def updateStatus (id : ID) (status : Status) (state : Decisions) :
    Decisions × Option UpdateError :=
  match state.vertices.lookup id with
  | none => (state, some .unknownVertex)
  | some vertex =>
    if state.blockStatus vertex = status then (state, none)
    else
      match status with
      | .accepted => (vertex.accept state, none)
      | .rejected => (vertex.reject state, none)
      | other => (state, some (.unsupportedStatus other))

/-- The calls that decide. -/
inductive Decision where
  | updateStatus (id : ID) (status : Status)
  | acceptBlock (block : Block)
  | rejectBlock (block : Block)
  | acceptTransaction (tx : Transaction)
  | rejectTransaction (tx : Transaction)

/-- The state after a call; a returned error does not change it. -/
def decisionStep (state : Decisions) : Decision → Decisions
  | .updateStatus id status => (updateStatus id status state).1
  | .acceptBlock block => block.accept state
  | .rejectBlock block => block.reject state
  | .acceptTransaction tx => tx.accept state
  | .rejectTransaction tx => tx.reject state

/-- Accepted or rejected. -/
def Decided (status : Status) : Prop := status = .accepted ∨ status = .rejected

/-- What is decided in the first state has the same status in the second. -/
structure DecisionsKept (before after : Decisions) : Prop where
  blocks : ∀ block, Decided (before.blockStatus block) →
    after.blockStatus block = before.blockStatus block
  transactions : ∀ tx, Decided (before.txStatus tx) → after.txStatus tx = before.txStatus tx

/-- Every transaction of an accepted block is accepted. -/
def TransactionsFollow (state : Decisions) : Prop :=
  ∀ block, state.blockStatus block = .accepted →
    ∀ tx ∈ block.transactions, state.txStatus tx = .accepted

/-- The status does not undo a decision. -/
def Agrees (current status : Status) : Prop := Decided current → current = status

/-- The status undoes no decision on the block or on one of its transactions. -/
def Block.Agrees (block : Block) (status : Status) (state : Decisions) : Prop :=
  Chain.Agrees (state.blockStatus block) status ∧
    ∀ tx ∈ block.transactions, Chain.Agrees (state.txStatus tx) status

/-- The call asks for the opposite of no decision already made. -/
def UndoesNothing (state : Decisions) : Decision → Prop
  | .updateStatus id status => ∀ vertex, state.vertices.lookup id = some vertex →
      state.blockStatus vertex ≠ status → Decided status → vertex.Agrees status state
  | .acceptBlock block => block.Agrees .accepted state
  | .rejectBlock block => block.Agrees .rejected state
  | .acceptTransaction tx => Agrees (state.txStatus tx) .accepted
  | .rejectTransaction tx => Agrees (state.txStatus tx) .rejected

/-- Marking a block writes its own status and no other. -/
theorem Block.mark_blockStatus (status : Status) (block : Block) (state : Decisions) :
    (block.mark status state).blockStatus = Function.update state.blockStatus block status := by
  unfold Block.mark
  generalize Function.update state.blockStatus block status = updated
  induction block.transactions generalizing state with
  | nil => rfl
  | cons tx rest inductionHypothesis =>
    exact inductionHypothesis (tx.mark status state)

/-- Marking a block writes the status to all of its transactions. -/
theorem Block.mark_txStatus (status : Status) (block : Block) (state : Decisions)
    (tx : Transaction) :
    (block.mark status state).txStatus tx =
      if tx ∈ block.transactions then status else state.txStatus tx := by
  unfold Block.mark
  generalize Function.update state.blockStatus block status = updated
  induction block.transactions generalizing state with
  | nil => rfl
  | cons first rest inductionHypothesis =>
    have later := inductionHypothesis (first.mark status state)
    by_cases same : tx = first
    · subst same
      simp_all [Transaction.mark]
    · simp_all [Transaction.mark]

/-- Nothing is undone without a step. -/
theorem DecisionsKept.refl (state : Decisions) : DecisionsKept state state :=
  ⟨fun _ _ => rfl, fun _ _ => rfl⟩

/-- Two steps that undo nothing, one after the other. -/
theorem DecisionsKept.trans {first second third : Decisions} (one : DecisionsKept first second)
    (other : DecisionsKept second third) : DecisionsKept first third := by
  constructor
  · intro block decided
    have same := one.blocks block decided
    rw [other.blocks block (same ▸ decided), same]
  · intro tx decided
    have same := one.transactions tx decided
    rw [other.transactions tx (same ▸ decided), same]

/-- Marking a transaction keeps the decisions exactly when it undoes none. -/
theorem mark_kept_iff (status : Status) (tx : Transaction) (state : Decisions) :
    DecisionsKept state (tx.mark status state) ↔ Agrees (state.txStatus tx) status := by
  constructor
  · intro kept decided
    have same := kept.transactions tx decided
    rw [← same]
    exact Function.update_self ..
  · intro agrees
    refine ⟨fun _ _ => rfl, ?_⟩
    intro other decided
    by_cases same : other = tx
    · subst same
      exact (Function.update_self ..).trans (agrees decided).symm
    · exact Function.update_of_ne same ..

/-- Marking a block keeps the decisions exactly when it undoes none, on the block or on its
transactions. -/
theorem Block.mark_kept_iff (status : Status) (block : Block) (state : Decisions) :
    DecisionsKept state (block.mark status state) ↔ block.Agrees status state := by
  constructor
  · intro kept
    constructor
    · intro decided
      have same := kept.blocks block decided
      rw [Block.mark_blockStatus, Function.update_self] at same
      exact same.symm
    · intro tx member decided
      have same := kept.transactions tx decided
      rw [Block.mark_txStatus, if_pos member] at same
      exact same.symm
  · rintro ⟨onBlock, onTransactions⟩
    constructor
    · intro other decided
      rw [Block.mark_blockStatus]
      by_cases same : other = block
      · subst same
        exact (Function.update_self ..).trans (onBlock decided).symm
      · exact Function.update_of_ne same ..
    · intro tx decided
      rw [Block.mark_txStatus]
      split
      · rename_i member
        exact (onTransactions tx member decided).symm
      · rfl

/-- A decision that undoes nothing leaves the transactions of accepted blocks accepted. -/
theorem mark_transactionsFollow {status : Status} {tx : Transaction} {state : Decisions}
    (agrees : Agrees (state.txStatus tx) status) (follow : TransactionsFollow state) :
    TransactionsFollow (tx.mark status state) := by
  intro block accepted other member
  have before := follow block accepted other member
  rw [((mark_kept_iff status tx state).mpr agrees).transactions other (Or.inl before)]
  exact before

/-- Marking a block whose transactions agree keeps the transactions in step with their blocks. -/
theorem Block.mark_transactionsFollow {status : Status} {block : Block} {state : Decisions}
    (agrees : block.Agrees status state) (follow : TransactionsFollow state) :
    TransactionsFollow (block.mark status state) := by
  have kept := (Block.mark_kept_iff status block state).mpr agrees
  intro other accepted tx member
  rw [Block.mark_blockStatus] at accepted
  by_cases same : other = block
  · subst same
    rw [Function.update_self] at accepted
    rw [Block.mark_txStatus, if_pos member, accepted]
  · rw [Function.update_of_ne same] at accepted
    have before := follow other accepted tx member
    rw [kept.transactions tx (Or.inl before)]
    exact before

/-- `UpdateStatus` does nothing, or it marks the vertex with a decision. -/
theorem updateStatus_cases (id : ID) (status : Status) (state : Decisions) :
    ((updateStatus id status state).1 = state ∧ ∀ vertex,
      state.vertices.lookup id = some vertex → state.blockStatus vertex ≠ status →
        ¬ Decided status) ∨
    ∃ vertex, state.vertices.lookup id = some vertex ∧ state.blockStatus vertex ≠ status ∧
      Decided status ∧ (updateStatus id status state).1 = vertex.mark status state := by
  unfold updateStatus
  cases found : state.vertices.lookup id with
  | none => exact Or.inl ⟨rfl, by simp⟩
  | some vertex =>
    by_cases current : state.blockStatus vertex = status
    · refine Or.inl ⟨by simp [current], ?_⟩
      rintro _ ⟨⟩ different
      exact absurd current different
    · cases status with
      | unknown => exact Or.inl ⟨by simp [current], by simp [Decided]⟩
      | processing => exact Or.inl ⟨by simp [current], by simp [Decided]⟩
      | rejected =>
        refine Or.inr ⟨vertex, rfl, current, Or.inr rfl, ?_⟩
        simp only [current, if_false]
        rfl
      | accepted =>
        refine Or.inr ⟨vertex, rfl, current, Or.inl rfl, ?_⟩
        simp only [current, if_false]
        rfl

/-- A call keeps the decisions exactly when it undoes none. -/
theorem decisionStep_kept_iff (state : Decisions) (decision : Decision) :
    DecisionsKept state (decisionStep state decision) ↔ UndoesNothing state decision := by
  cases decision with
  | updateStatus id status =>
    simp only [decisionStep, UndoesNothing]
    rcases updateStatus_cases id status state with
      ⟨idle, nothing⟩ | ⟨vertex, found, different, decided, after⟩
    · rw [idle]
      refine iff_of_true (DecisionsKept.refl state) ?_
      intro vertex found different decided
      exact absurd decided (nothing vertex found different)
    · rw [after, Block.mark_kept_iff]
      constructor
      · rintro agrees other lookup _ _
        rw [found] at lookup
        cases lookup
        exact agrees
      · intro agrees
        exact agrees vertex found different decided
  | acceptBlock block => exact Block.mark_kept_iff .accepted block state
  | rejectBlock block => exact Block.mark_kept_iff .rejected block state
  | acceptTransaction tx => exact mark_kept_iff .accepted tx state
  | rejectTransaction tx => exact mark_kept_iff .rejected tx state

/-- A decision that undoes nothing keeps the transactions in step with their blocks. -/
theorem decisionStep_transactionsFollow (state : Decisions) (decision : Decision)
    (guarded : UndoesNothing state decision) (follow : TransactionsFollow state) :
    TransactionsFollow (decisionStep state decision) := by
  cases decision with
  | updateStatus id status =>
    simp only [decisionStep]
    rcases updateStatus_cases id status state with
      ⟨idle, _⟩ | ⟨vertex, found, different, decided, after⟩
    · rw [idle]
      exact follow
    · rw [after]
      exact Block.mark_transactionsFollow (guarded vertex found different decided) follow
  | acceptBlock block => exact Block.mark_transactionsFollow guarded follow
  | rejectBlock block => exact Block.mark_transactionsFollow guarded follow
  | acceptTransaction tx => exact mark_transactionsFollow guarded follow
  | rejectTransaction tx => exact mark_transactionsFollow guarded follow

/-- Decisions are final along a sequence of calls, and the transactions of accepted blocks
accepted in all its states, exactly when no call asks for the opposite of a decision already
made on the object or on a transaction it decides along with it. -/
theorem decisions_final_iff (vertices : GoMap ID Block) (calls : List Decision) :
    (Runs.Onward decisionStep DecisionsKept (undecided vertices) calls ∧
      Runs.Always decisionStep TransactionsFollow (undecided vertices) calls) ↔
      Runs.Along decisionStep UndoesNothing (undecided vertices) calls := by
  have start : TransactionsFollow (undecided vertices) := by
    intro block accepted
    cases accepted
  rw [Runs.onward_iff_along decisionStep DecisionsKept.refl (fun _ _ _ => DecisionsKept.trans)]
  constructor
  · rintro ⟨kept, _⟩
    exact kept.imp_of_invariant decisionStep (fun _ => True) (fun _ _ _ _ => trivial)
      (fun state decision _ => (decisionStep_kept_iff state decision).mp) trivial
  · intro along
    constructor
    · exact along.imp_of_invariant decisionStep (fun _ => True) (fun _ _ _ _ => trivial)
        (fun state decision _ => (decisionStep_kept_iff state decision).mpr) trivial
    · exact along.always decisionStep TransactionsFollow decisionStep_transactionsFollow start

/-- Two blocks on the genesis block with the same transaction object. -/
def sharingBlock (ref : ℕ) (height : UInt64) : Block :=
  newBlock positionalHash ref 0 [genesisID] [sampleTx 1] height

/-- Both of them are vertices. -/
def sharingVertices : GoMap ID Block :=
  (Finmap.singleton (sharingBlock 1 1).id (sharingBlock 1 1)).insert (sharingBlock 2 2).id
    (sharingBlock 2 2)

/-- Accepting one block and rejecting the other leaves an accepted block with a rejected
transaction that had been accepted. -/
theorem shared_transaction_flips :
    let accepted := Runs.run decisionStep (undecided sharingVertices)
      [.updateStatus (sharingBlock 1 1).id .accepted]
    let rejected := decisionStep accepted (.updateStatus (sharingBlock 2 2).id .rejected)
    accepted.txStatus (sampleTx 1) = .accepted ∧ rejected.txStatus (sampleTx 1) = .rejected ∧
      rejected.blockStatus (sharingBlock 1 1) = .accepted ∧
      ¬ DecisionsKept accepted rejected ∧ ¬ TransactionsFollow rejected := by
  intro accepted rejected
  have first : accepted.txStatus (sampleTx 1) = .accepted := by decide +kernel
  have second : rejected.txStatus (sampleTx 1) = .rejected := by decide +kernel
  have status : rejected.blockStatus (sharingBlock 1 1) = .accepted := by decide +kernel
  have member : sampleTx 1 ∈ (sharingBlock 1 1).transactions := by decide +kernel
  refine ⟨first, second, status, ?_, ?_⟩
  · intro kept
    have same := kept.transactions (sampleTx 1) (Or.inl first)
    rw [first, second] at same
    cases same
  · intro follow
    have same := follow (sharingBlock 1 1) status (sampleTx 1) member
    rw [second] at same
    cases same

end AvalancheParallel.Chain
