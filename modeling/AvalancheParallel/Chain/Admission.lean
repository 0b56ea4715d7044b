import AvalancheParallel.Chain.ParallelProcessing
import AvalancheParallel.Chain.Replay

/-!
# Admission to the pool

`AddTransaction` verifies a transaction before it enters the pool, and nothing else
verifies it before it is in a block. This is enough: as long as only blocks returned by
`CreateBlock` are submitted, every pending block holds admitted transactions only, so
that a call of `ProcessPendingBlocks` that nothing interrupts accepts all of them.
-/

namespace AvalancheParallel.Chain

open AvalancheParallel.RangeLoop AvalancheParallel.Ids

/-- Every transaction of the block passes `Verify`. -/
def Block.Admitted (block : Block) : Prop := ∀ tx ∈ block.transactions, tx.verify = none

/-- A block of admitted transactions passes `Block.Verify`. -/
theorem Block.Admitted.verify {block : Block} (admitted : block.Admitted) :
    block.verify = none := by
  unfold Block.verify
  rw [List.findSome?_eq_none_iff]
  exact admitted

/-- A call of `ProcessPendingBlocks` without interruption accepts every pending block. -/
def AcceptsPending (bc : Blockchain) : Prop :=
  ∀ maxWorkers order, 1 ≤ maxWorkers →
    (∀ schedule, ∃ rest, (processPendingBlocks maxWorkers order bc (schedule ++ rest)).Returns) ∧
    ∀ schedule, (processPendingBlocks maxWorkers order bc schedule).Returns →
      (processPendingBlocks maxWorkers order bc schedule).bc.pendingBlocks = ∅ ∧
      ∀ id ∈ bc.pendingBlocks,
        id ∈ (processPendingBlocks maxWorkers order bc schedule).bc.acceptedBlocks

/-- What admission is for. -/
structure AdmissionSuffices (history : History) : Prop where
  pool : ∀ id tx, history.bc.txPool.lookup id = some tx → tx.verify = none
  created : ∀ block ∈ history.created, block.Admitted ∧ block.verify = none
  processing : AcceptsPending history.bc

/-- The invariant: what was created or is stored holds admitted transactions. -/
structure OnlyAdmitted (history : History) : Prop where
  keyed : Keyed history.bc
  created : ∀ block ∈ history.created, block.Admitted
  stored : ∀ id block, history.bc.blocks.lookup id = some block → block.Admitted

/-- A built block takes its transactions from the pool. -/
theorem builtBlock_admitted (sha256 : List UInt8 → ID) (order : IterationOrder ID)
    (parentIDs : List ID) (maxTxs now : ℤ) {bc : Blockchain} (keyed : PoolKeyed bc) :
    (builtBlock sha256 order parentIDs maxTxs now bc).Admitted := by
  intro tx taken
  exact (keyed tx.id tx (selectTxs_pooled keyed.ids taken)).2

/-- A step that creates nothing and keeps the stored blocks. -/
theorem OnlyAdmitted.of_same {history after : History} (admitted : OnlyAdmitted history)
    (keyed : Keyed after.bc) (created : after.created = history.created)
    (blocks : after.bc.blocks = history.bc.blocks) : OnlyAdmitted after where
  keyed := keyed
  created := created ▸ admitted.created
  stored := blocks ▸ admitted.stored

/-- A created block has transactions from the pool, which were admitted. -/
theorem createBlock_onlyAdmitted (sha256 : List UInt8 → ID) (order : IterationOrder ID)
    (parentIDs : List ID) (maxTxs now : ℤ) {history : History} (admitted : OnlyAdmitted history) :
    OnlyAdmitted (recordStep sha256 history (.createBlock order parentIDs maxTxs now)) := by
  have keyed := step_keyed sha256 history.bc (.createBlock order parentIDs maxTxs now)
    admitted.keyed
  rcases createBlock_cases sha256 order parentIDs maxTxs now history.bc with
    ⟨_, same, nothing⟩ | ⟨_, after⟩
  · refine admitted.of_same keyed ?_ (congrArg Blockchain.blocks same)
    exact (congrArg (history.created ++ ·) (createdBy_eq_nil nothing)).trans (List.append_nil _)
  · have new := builtBlock_admitted sha256 order parentIDs maxTxs now admitted.keyed.pool
    refine ⟨keyed, ?_, ?_⟩
    · intro block member
      simp only [recordStep, createdBy, after] at member
      rcases List.mem_append.mp member with earlier | here
      · exact admitted.created block earlier
      · exact List.mem_singleton.mp here ▸ new
    · intro id block found
      simp only [recordStep, step, after, storeBlock] at found
      obtain ⟨_, rfl⟩ | ⟨_, earlier⟩ := lookup_insert_cases found
      · exact new
      · exact admitted.stored id block earlier

/-- Every step keeps the chain to admitted transactions, as long as only created blocks are
submitted. -/
theorem recordStep_onlyAdmitted (sha256 : List UInt8 → ID) (history : History) (action : Action)
    (submits : SubmitsCreated history action) (admitted : OnlyAdmitted history) :
    OnlyAdmitted (recordStep sha256 history action) := by
  have keyed := step_keyed sha256 history.bc action admitted.keyed
  have phase : action.IsPhase → createdBy sha256 history.bc action = [] →
      OnlyAdmitted (recordStep sha256 history action) := by
    intro isPhase none
    refine admitted.of_same keyed ?_ (phase_same sha256 history.bc action isPhase).blocks
    exact (congrArg (history.created ++ ·) none).trans (List.append_nil _)
  cases action with
  | addTransaction tx =>
    refine admitted.of_same keyed (List.append_nil _) ?_
    change (addTransaction tx history.bc).1.blocks = history.bc.blocks
    rcases addTransaction_cases tx history.bc with ⟨_, idle⟩ | ⟨_, _, _, after⟩
    · rw [idle]
    · rw [after]
  | createBlock order parentIDs maxTxs now =>
    exact createBlock_onlyAdmitted sha256 order parentIDs maxTxs now admitted
  | submitBlock block =>
    refine ⟨keyed, ?_, ?_⟩
    · intro other member
      exact admitted.created other ((List.mem_append.mp member).resolve_right List.not_mem_nil)
    · intro id other found
      change (submitBlock block history.bc).blocks.lookup id = some other at found
      rw [submitBlock_lookup] at found
      split at found
      · exact Option.some.inj found ▸ admitted.created block submits
      · exact admitted.stored id other found
  | snapshot order pass => exact phase trivial rfl
  | verify pass index => exact phase trivial rfl
  | accept pass index => exact phase trivial rfl
  | collect pass => exact phase trivial rfl

/-- The new chain has no transactions. -/
theorem newHistory_onlyAdmitted (sha256 : List UInt8 → ID) (now : ℤ) :
    OnlyAdmitted (newHistory sha256 now) where
  keyed := newBlockchain_keyed sha256 now
  created := fun _ member => absurd member List.not_mem_nil
  stored := by
    intro id block found
    rw [(newBlockchain_blocks found).2]
    exact fun _ member => absurd member List.not_mem_nil

/-- The worker of an admitted block delivers a success. -/
theorem Block.Admitted.delivers {block : Block} (admitted : block.Admitted) :
    WorkerOp.deliver block.id none ∈ worker block := by
  unfold worker
  rw [admitted.verify]
  simp

/-- When every stored block is admitted, a call that returns has accepted every pending block. -/
theorem acceptsPending {bc : Blockchain} (keyed : Keyed bc)
    (admitted : ∀ id block, bc.blocks.lookup id = some block → block.Admitted) :
    AcceptsPending bc := by
  intro maxWorkers order positive
  refine ⟨exists_return keyed positive order, ?_⟩
  intro schedule returns
  obtain ⟨ops, operations, reflects⟩ := returned_reflects keyed returns
  have collected : ∀ id ∈ bc.pendingBlocks, (id, none) ∈ ops.filterMap WorkerOp.result? := by
    intro id pending
    obtain ⟨block, found⟩ := Finmap.mem_iff.mp pending
    have stored := keyed.pending id block found
    have own := (keyed.blocks id block stored).1
    have listed := (order.mem_values bc.pendingBlocks block).mpr ⟨id, found⟩
    have delivered : WorkerOp.deliver block.id none ∈
        ((order.values bc.pendingBlocks).map worker).flatten :=
      List.mem_flatten.mpr ⟨worker block, List.mem_map.mpr ⟨block, listed, rfl⟩,
        (admitted id block stored).delivers⟩
    rw [← own]
    exact List.mem_filterMap.mpr ⟨_, operations.symm.subset delivered, rfl⟩
  constructor
  · apply Finmap.ext_lookup
    intro id
    rw [reflects.pendingBlocks id, Finmap.lookup_empty]
    split
    · rfl
    · rename_i waiting
      rw [Finmap.lookup_eq_none]
      exact fun pending => waiting (collected id pending)
  · intro id pending
    obtain ⟨block, found⟩ := Finmap.mem_iff.mp pending
    rw [Finmap.mem_iff]
    refine ⟨block, ?_⟩
    rw [reflects.acceptedBlocks id, if_pos (collected id pending)]
    exact keyed.pending id block found

/-- In every state of a run that submits only created blocks, admission suffices. -/
theorem always_admissionSuffices (sha256 : List UInt8 → ID) (now : ℤ) {actions : List Action}
    (submits : Runs.Along (recordStep sha256) SubmitsCreated (newHistory sha256 now) actions) :
    Runs.Always (recordStep sha256) AdmissionSuffices (newHistory sha256 now) actions := by
  have always := Runs.Along.always (recordStep sha256) OnlyAdmitted
    (recordStep_onlyAdmitted sha256) submits (newHistory_onlyAdmitted sha256 now)
  refine Runs.Always.imp (recordStep sha256) ?_ always
  intro history admitted
  constructor
  case pool => exact fun id tx found => (admitted.keyed.pool id tx found).2
  case created =>
    intro block member
    exact ⟨admitted.created block member, (admitted.created block member).verify⟩
  case processing => exact acceptsPending admitted.keyed admitted.stored

/-- A transaction is admitted and placed in a block, which is submitted. -/
def admittedRun : List Action :=
  [.addTransaction (sampleTx 1), createOne genesisID,
    .submitBlock (newBlock positionalHash 1 0 [genesisID] [sampleTx 1] 1)]

/-- The block is pending and has been created, and it will be accepted. -/
theorem admitted_block_suffices :
    (runChain positionalHash 0 admittedRun).pendingBlocks.keys.card = 1 ∧
      Runs.Always (recordStep positionalHash) AdmissionSuffices (newHistory positionalHash 0)
        admittedRun := by
  refine ⟨by decide +kernel, always_admissionSuffices positionalHash 0 ⟨?_, ?_, ?_, trivial⟩⟩
  · decide +kernel
  · decide +kernel
  · decide +kernel

end AvalancheParallel.Chain
