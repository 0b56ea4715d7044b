import AvalancheParallel.Chain.ChainLaws

/-!
# Transactions are not lost

A transaction that `AddTransaction` admitted moves from the pool into a block and
is found there by `GetTransaction`. It is lost when that block is replaced:
`CreateBlock` stores under an ID that does not depend on the transactions, so a
second block with the same parents, height and number of transactions takes the
place of the first.
-/

namespace AvalancheParallel.Chain

open AvalancheParallel.RangeLoop AvalancheParallel.Ids

/-- The block contains a transaction with this ID. -/
def Block.Holds (block : Block) (txID : ID) : Prop := ∃ tx ∈ block.transactions, tx.id = txID

/-- A block in the blocks map that carries the ID `NewBlock` gives it. -/
def Stored (sha256 : List UInt8 → ID) (bc : Blockchain) (block : Block) : Prop :=
  bc.blocks.lookup block.id = some block ∧ block.Genuine sha256

/-- The transaction is in the pool or in a stored block. -/
def Kept (sha256 : List UInt8 → ID) (txID : ID) (bc : Blockchain) : Prop :=
  txID ∈ bc.txPool ∨ ∃ block, Stored sha256 bc block ∧ block.Holds txID

/-- `CreateBlock` builds no twin of a stored block, unless each transaction of that block
is in the pool or in another stored block; and no collision of hashes occurs. -/
def Retains (sha256 : List UInt8 → ID) (bc : Blockchain) : Action → Prop
  | .createBlock order parentIDs maxTxs now => Builds parentIDs maxTxs bc →
      ∀ block, Stored sha256 bc block →
        block.NoCollision sha256 order parentIDs maxTxs now bc ∧
        (block.Twin order parentIDs maxTxs bc → ∀ txID, block.Holds txID → txID ∈ bc.txPool ∨
          ∃ other, Stored sha256 bc other ∧ other.id ≠ block.id ∧ other.Holds txID)
  | _ => True

/-- A transaction in the pool is taken into the new block or stays in the pool. -/
theorem storeBlock_pool (sha256 : List UInt8 → ID) (block : Block) (bc : Blockchain)
    (genuine : block.Genuine sha256) (txID : ID) (pooled : txID ∈ bc.txPool) :
    Kept sha256 txID (storeBlock block bc) := by
  by_cases taken : block.Holds txID
  · refine Or.inr ⟨block, ⟨?_, genuine⟩, taken⟩
    exact Finmap.lookup_insert bc.blocks
  · obtain ⟨tx, found⟩ := Finmap.mem_iff.mp pooled
    have untaken : txID ∉ block.transactions.map Transaction.id := mt List.mem_map.mp taken
    have stays : (storeBlock block bc).txPool.lookup txID = some tx :=
      (lookup_foldl_erase_some _ _ txID tx).mpr ⟨found, untaken⟩
    exact Or.inl (Finmap.mem_of_lookup_eq_some stays)

/-- A stored block stays when a block with another ID is stored. -/
theorem storeBlock_stored {sha256 : List UInt8 → ID} {block other : Block} {bc : Blockchain}
    (different : other.id ≠ block.id) (stored : Stored sha256 bc other) :
    Stored sha256 (storeBlock block bc) other := by
  refine ⟨?_, stored.2⟩
  simp only [storeBlock]
  rw [Finmap.lookup_insert_of_ne bc.blocks different]
  exact stored.1

/-- Creating a block loses no transaction, unless it replaces the block that has it. -/
theorem createBlock_kept (sha256 : List UInt8 → ID) (order : IterationOrder ID)
    (parentIDs : List ID) (maxTxs now : ℤ) (bc : Blockchain)
    (retains : Retains sha256 bc (.createBlock order parentIDs maxTxs now)) (txID : ID)
    (kept : Kept sha256 txID bc) :
    Kept sha256 txID (createBlock sha256 order parentIDs maxTxs now bc).1 := by
  rcases createBlock_cases sha256 order parentIDs maxTxs now bc with
    ⟨_, same, _⟩ | ⟨builds, after⟩
  · rw [same]
    exact kept
  · rw [after]
    have genuine : (builtBlock sha256 order parentIDs maxTxs now bc).Genuine sha256 := rfl
    have fromPool := storeBlock_pool sha256 (builtBlock sha256 order parentIDs maxTxs now bc) bc
      genuine txID
    rcases kept with pooled | ⟨block, stored, holds⟩
    · exact fromPool pooled
    · by_cases replaced : block.id = (builtBlock sha256 order parentIDs maxTxs now bc).id
      · obtain ⟨noCollision, elsewhere⟩ := retains builds block stored
        have twin := noCollision.twin stored.2 replaced
        rcases elsewhere twin txID holds with pooled | ⟨other, otherStored, different, otherHolds⟩
        · exact fromPool pooled
        · exact Or.inr ⟨other, storeBlock_stored (replaced ▸ different) otherStored, otherHolds⟩
      · exact Or.inr ⟨block, storeBlock_stored replaced stored, holds⟩

/-- Adding a transaction loses none. -/
theorem addTransaction_kept (sha256 : List UInt8 → ID) (tx : Transaction) (bc : Blockchain)
    (txID : ID) (kept : Kept sha256 txID bc) : Kept sha256 txID (addTransaction tx bc).1 := by
  rcases addTransaction_cases tx bc with ⟨_, idle⟩ | ⟨_, _, _, after⟩
  · rw [idle]
    exact kept
  · rw [after]
    exact kept.imp_left (fun pooled => Finmap.mem_insert.mpr (Or.inr pooled))

/-- An admitted transaction is kept. -/
theorem addTransaction_admits (sha256 : List UInt8 → ID) (tx : Transaction) (bc : Blockchain)
    (admitted : (addTransaction tx bc).2 = none) : Kept sha256 tx.id (addTransaction tx bc).1 := by
  rcases addTransaction_cases tx bc with ⟨refused, _⟩ | ⟨_, _, _, after⟩
  · exact absurd admitted refused
  · rw [after]
    exact Or.inl (Finmap.mem_insert.mpr (Or.inl rfl))

/-- Submitting a block loses no transaction. -/
theorem submitBlock_kept (sha256 : List UInt8 → ID) (block : Block) (bc : Blockchain) (txID : ID)
    (kept : Kept sha256 txID bc) : Kept sha256 txID (submitBlock block bc) := by
  rcases kept with pooled | ⟨other, stored, holds⟩
  · exact Or.inl pooled
  · refine Or.inr ⟨other, ⟨?_, stored.2⟩, holds⟩
    have present : other.id ∈ bc.blocks := Finmap.mem_of_lookup_eq_some stored.1
    have notNew : ¬ (other.id = block.id ∧ block.id ∉ bc.blocks) := by
      rintro ⟨same, fresh⟩
      exact fresh (same ▸ present)
    rw [submitBlock_lookup, if_neg notNew]
    exact stored.1

/-- A transaction is still found when the store is the same. -/
theorem SameStore.kept {bc after : Blockchain} (same : SameStore bc after)
    {sha256 : List UInt8 → ID} {txID : ID} (kept : Kept sha256 txID bc) :
    Kept sha256 txID after := by
  unfold Kept Stored at kept ⊢
  rw [same.txPool, same.blocks]
  exact kept

/-- A guarded step keeps every kept transaction. -/
theorem step_kept (sha256 : List UInt8 → ID) (txID : ID) (bc : Blockchain) (action : Action)
    (retains : Retains sha256 bc action) (kept : Kept sha256 txID bc) :
    Kept sha256 txID (step sha256 bc action) := by
  cases action with
  | addTransaction tx => exact addTransaction_kept sha256 tx bc txID kept
  | createBlock order parentIDs maxTxs now =>
    exact createBlock_kept sha256 order parentIDs maxTxs now bc retains txID kept
  | submitBlock block => exact submitBlock_kept sha256 block bc txID kept
  | snapshot order pass => exact (snapshotPending_same order pass bc).toSameStore.kept kept
  | verify pass index => exact (verifyWorker_same pass index bc).toSameStore.kept kept
  | accept pass index => exact (acceptWorker_same pass index bc).toSameStore.kept kept
  | collect pass => exact (collectResults_same pass bc).toSameStore.kept kept

/-- `GetTransaction` finds a kept transaction, in every iteration order. -/
theorem Kept.found {sha256 : List UInt8 → ID} {txID : ID} {bc : Blockchain}
    (kept : Kept sha256 txID bc) (order : IterationOrder ID) :
    ∃ tx, getTransaction order txID bc = .ok tx := by
  unfold getTransaction
  cases pooled : bc.txPool.lookup txID with
  | some tx => exact ⟨tx, rfl⟩
  | none =>
    have absent : txID ∉ bc.txPool := Finmap.lookup_eq_none.mp pooled
    obtain ⟨block, stored, tx, member, same⟩ := kept.resolve_left absent
    have listed : block ∈ (order.arrange bc.blocks.keys).filterMap bc.blocks.lookup := by
      refine List.mem_filterMap.mpr ⟨block.id, ?_, stored.1⟩
      rw [order.mem_arrange]
      exact Finmap.mem_keys.mpr (Finmap.mem_of_lookup_eq_some stored.1)
    have inside : (block.transactions.find? (fun tx => decide (tx.id = txID))).isSome = true :=
      List.find?_isSome.mpr ⟨tx, member, by simp [same]⟩
    cases search : ((order.arrange bc.blocks.keys).filterMap bc.blocks.lookup).findSome?
        (fun block => block.transactions.find? (fun tx => decide (tx.id = txID))) with
    | some tx => exact ⟨tx, rfl⟩
    | none =>
      have nothing := List.findSome?_eq_none_iff.mp search block listed
      simp [nothing] at inside

/-- In every run in which `CreateBlock` replaces no block whose transactions are nowhere
else, a transaction once admitted is found in every later state. -/
theorem transaction_retained (sha256 : List UInt8 → ID) (now : ℤ) (before after : List Action)
    (tx : Transaction) (admitted : (addTransaction tx (runChain sha256 now before)).2 = none)
    (retains : Runs.Along (step sha256) (Retains sha256)
      (step sha256 (runChain sha256 now before) (.addTransaction tx)) after) :
    Runs.Always (step sha256)
      (fun bc => ∀ order, ∃ found, getTransaction order tx.id bc = .ok found)
      (step sha256 (runChain sha256 now before) (.addTransaction tx)) after := by
  have kept : Kept sha256 tx.id (step sha256 (runChain sha256 now before) (.addTransaction tx)) :=
    addTransaction_admits sha256 tx _ admitted
  have always := retains.always (step sha256) (Kept sha256 tx.id) (step_kept sha256 tx.id) kept
  exact always.imp (step sha256) (fun bc here order => here.found order)

/-- Two blocks of one transaction each on top of the genesis block. -/
def twinRun : List Action :=
  [createOne genesisID, .addTransaction (sampleTx 2), createOne genesisID]

/-- The second block replaces the first, and the transaction of the first is gone. -/
theorem replaced_block_loses_transaction :
    (addTransaction (sampleTx 1) (newBlockchain positionalHash 0)).2 = none ∧
      getTransaction (byValue 32) (sampleTx 1).id
        (runChain positionalHash 0 (.addTransaction (sampleTx 1) :: twinRun)) =
          .error (.transactionNotFound (sampleTx 1).id) := by
  decide +kernel

/-- The stored blocks can be checked one by one against the block about to be built. -/
theorem retains_of_no_twin (sha256 : List UInt8 → ID) (order : IterationOrder ID)
    (parentIDs : List ID) (maxTxs now : ℤ) (bc : Blockchain)
    (checked : ∀ id ∈ bc.blocks.keys, ((bc.blocks.lookup id).all fun block =>
      decide (block.NoCollision sha256 order parentIDs maxTxs now bc) &&
        !decide (block.Twin order parentIDs maxTxs bc)) = true) :
    Retains sha256 bc (.createBlock order parentIDs maxTxs now) := by
  intro _ block stored
  have here := checked block.id (Finmap.mem_keys.mpr (Finmap.mem_of_lookup_eq_some stored.1))
  rw [stored.1] at here
  obtain ⟨noCollision, noTwin⟩ : block.NoCollision sha256 order parentIDs maxTxs now bc ∧
      ¬ block.Twin order parentIDs maxTxs bc := by simpa using here
  exact ⟨noCollision, fun twin => absurd twin noTwin⟩

/-- The ID of the block that holds the first transaction. -/
def firstBlockID : ID := positionalHash (headerBytes 1 [genesisID] 1)

/-- The second block on top of the first instead. -/
def stackedRun : List Action :=
  [createOne genesisID, .addTransaction (sampleTx 2), createOne firstBlockID]

/-- Both transactions are found at the end of this run. -/
theorem stacked_run_retains :
    Runs.Always (step positionalHash)
      (fun bc => ∀ order, ∃ found, getTransaction order (sampleTx 1).id bc = .ok found)
      (step positionalHash (runChain positionalHash 0 []) (.addTransaction (sampleTx 1)))
      stackedRun := by
  refine transaction_retained positionalHash 0 [] stackedRun (sampleTx 1) (by decide +kernel)
    ⟨?_, trivial, ?_, trivial⟩
  · exact retains_of_no_twin _ _ _ _ _ _ (by decide +kernel)
  · exact retains_of_no_twin _ _ _ _ _ _ (by decide +kernel)

end AvalancheParallel.Chain
